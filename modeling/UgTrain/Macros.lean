import UgTrain.CfgEntry
import UgTrain.Chain

/-!
# Names and macros in the config (`parse_value_name`, `read_config`)

A config line starts with a name, up to the first blank. A name that is no keyword and that a
`define` line has introduced is a macro: its body takes the place of the whole line, and the name is
parsed again. Nothing counts these substitutions, so that a macro whose body starts with its own name,
or with a macro that leads back to it, is substituted forever (`parseValueName_iff`).

* `cfg_parse_err` ends the program, and so does the exception of a substring behind the end of its
  string.
* `parseValueName macros allowSpaces named n` makes `n` substitutions at most; `named` is whether
  `name_type` is given.
-/

namespace UgTrain

open CLib

/-- `name_e`. -/
inductive NameType where
  | regular
  | check
  | checkObj
  | define
  | gameCall
  | gamePath
  | gameBinpath
  | gameParams
  | useGbt
  | noPreload
  | dynmemStart
  | dynmemConst
  | dynmemGrow
  | dynmemEnd
  | dynmemFile
  | ptrmemStart
  | ptrmemEnd
  | dump
  | adpScript
  | adpReq
  deriving DecidableEq, Repr

inductive NameError where
  /-- `cfg_parse_err`, with the place in the line. -/
  | parse (lidx : Nat)
  /-- `std::out_of_range`. -/
  | outOfRange
  deriving DecidableEq, Repr

/-- What `parse_value_name` gives: the name, the line with the place behind the name, the type. -/
structure ValueName where
  ret : Str
  line : Str
  start : Nat
  nameType : Option NameType
  deriving DecidableEq, Repr

/-- `macros`: a name and the text behind it. -/
abbrev Macros := List (Str × Str)

/-! ## Names -/

def isNameChar (c : Char) : Bool := c.isAlphanum || "-_/.+ ".toList.contains c

/-- The end of the name, or the place of a character that is not allowed. -/
def scanName (allowSpaces : Bool) (lidx : Nat) : Str → Except Nat Nat
  | [] => .ok lidx
  | c :: cs =>
    if allowSpaces = false ∧ c = ' ' then .ok lidx
    else if isNameChar c then scanName allowSpaces (lidx + 1) cs
    else .error lidx

/-- The name from `start` on, and the place behind it. -/
def firstName (allowSpaces : Bool) (line : Str) (start : Nat) : Except NameError (Str × Nat) :=
  match scanName allowSpaces start (line.drop start) with
  | .error lidx => .error (.parse lidx)
  | .ok lidx =>
    if line.length < start then .error .outOfRange
    else .ok ((line.drop start).take (lidx - start), lidx + 1)

/-- The type by the text behind a common beginning. -/
def typeBehind (types : List (String × NameType)) (rest : Str) : NameType :=
  (types.lookup (String.ofList rest)).getD .regular

/-- The types that are not left to the macros. -/
def keyword (ret : Str) : Option NameType :=
  if ret.take 6 = "dynmem".toList then
    some (typeBehind [("start", .dynmemStart), ("const", .dynmemConst), ("grow", .dynmemGrow),
      ("end", .dynmemEnd), ("file", .dynmemFile)] (ret.drop 6))
  else if ret.take 6 = "ptrmem".toList then
    some (typeBehind [("start", .ptrmemStart), ("end", .ptrmemEnd)] (ret.drop 6))
  else if ret.take 5 = "check".toList then
    some (typeBehind [("", .check), ("o", .checkObj)] (ret.drop 5))
  else if ret.take 6 = "adapt_".toList then
    some (typeBehind [("script", .adpScript), ("required", .adpReq)] (ret.drop 6))
  else if ret.take 5 = "game_".toList then
    some (typeBehind [("path", .gamePath), ("binpath", .gameBinpath), ("call", .gameCall),
      ("params", .gameParams)] (ret.drop 5))
  else
    [("use_gbt", NameType.useGbt), ("no_preload", .noPreload), ("define", .define),
      ("dump", .dump)].lookup (String.ofList ret)

/-! ## Substitutions -/

/-- One round: the result, or the body of a macro. -/
def nameRound (macros : Macros) (allowSpaces named : Bool) (line : Str) (start : Nat) :
    Except NameError ValueName ⊕ Str :=
  match firstName allowSpaces line start with
  | .error e => .inl (.error e)
  | .ok (ret, start) =>
    if named = false then .inl (.ok ⟨ret, line, start, none⟩)
    else
      match keyword ret with
      | some type => .inl (.ok ⟨ret, line, start, some type⟩)
      | none =>
        match macros.lookup ret with
        | some body => .inr body
        | none => .inl (.ok ⟨ret, line, start, some .regular⟩)

/-- `parse_value_name`. -/
def parseValueName (macros : Macros) (allowSpaces named : Bool) (n : Nat) (line : Str)
    (start : Nat) : Option (Except NameError ValueName) :=
  match nameRound macros allowSpaces named line start, n with
  | .inl r, _ => some r
  | .inr _, 0 => none
  | .inr body, n + 1 => parseValueName macros allowSpaces named n body 0

/-- A `define` line, from behind its name on. -/
def parseDefine (macros : Macros) (line : Str) (start : Nat) : Except NameError Macros :=
  match firstName false line start with
  | .error e => .error e
  | .ok (key, start) =>
    if line.length < start then .error .outOfRange
    else .ok ((key, line.drop start) :: macros.filter (·.1 ≠ key))

/-- The name that the body of a macro starts with. -/
def Macros.next (macros : Macros) (allowSpaces : Bool) (name : Str) : Option Str :=
  if (keyword name).isSome then none
  else (macros.lookup name).bind fun body =>
    (firstName allowSpaces body 0).toOption.map (·.1)

/-- The name of the line is a macro that leads to one which leads back to itself. -/
def Macros.Recursive (macros : Macros) (allowSpaces named : Bool) (line : Str) (start : Nat) :
    Prop :=
  named = true ∧ ∃ name behind, firstName allowSpaces line start = .ok (name, behind) ∧
    Chain.Cyclic (macros.next allowSpaces) name

section Proofs

variable {macros : Macros} {allowSpaces named : Bool} {line : Str} {start n : Nat} {name : Str}

theorem next_eq_some {name' : Str} : macros.next allowSpaces name = some name' ↔
    keyword name = none ∧ ∃ body behind, macros.lookup name = some body ∧
      firstName allowSpaces body 0 = .ok (name', behind) := by
  unfold Macros.next
  cases hk : keyword name with
  | some type => simp
  | none =>
    cases hl : macros.lookup name with
    | none => simp
    | some body =>
      rcases hf : firstName allowSpaces body 0 with e | ⟨name'', behind⟩ <;>
        simp [Except.toOption, hf]

theorem next_mem {name' : Str} (h : macros.next allowSpaces name = some name') :
    name ∈ macros.map (·.1) := by
  obtain ⟨-, body, -, hbody, -⟩ := next_eq_some.mp h
  obtain ⟨ms, ms', rfl, -⟩ := List.lookup_eq_some_iff.mp hbody
  simp

theorem parseValueName_inl {r : Except NameError ValueName}
    (h : nameRound macros allowSpaces named line start = .inl r) :
    parseValueName macros allowSpaces named n line start = some r := by
  unfold parseValueName
  rw [h]

theorem parseValueName_inr_zero {body : Str}
    (h : nameRound macros allowSpaces named line start = .inr body) :
    parseValueName macros allowSpaces named 0 line start = none := by
  unfold parseValueName
  rw [h]

theorem parseValueName_inr {body : Str}
    (h : nameRound macros allowSpaces named line start = .inr body) :
    parseValueName macros allowSpaces named (n + 1) line start
      = parseValueName macros allowSpaces named n body 0 := by
  rw [parseValueName.eq_def, h]

theorem nameRound_error {e : NameError} (hname : firstName allowSpaces line start = .error e) :
    nameRound macros allowSpaces named line start = .inl (.error e) := by
  unfold nameRound
  rw [hname]

/-- Only a macro goes on. -/
theorem nameRound_cases (macros : Macros) (named : Bool) {behind : Nat}
    (hname : firstName allowSpaces line start = .ok (name, behind)) :
    (∃ v, nameRound macros allowSpaces named line start = .inl (.ok v) ∧
      (named = true → keyword name = none → macros.lookup name = none)) ∨
    ∃ body, nameRound macros allowSpaces named line start = .inr body ∧
      named = true ∧ keyword name = none ∧ macros.lookup name = some body := by
  unfold nameRound
  rw [hname]
  dsimp only
  cases named with
  | false => exact .inl ⟨_, if_pos rfl, nofun⟩
  | true =>
    rw [if_neg Bool.noConfusion]
    cases keyword name with
    | some type => exact .inl ⟨_, rfl, nofun⟩
    | none =>
      cases macros.lookup name with
      | none => exact .inl ⟨_, rfl, fun _ _ => rfl⟩
      | some body => exact .inr ⟨body, rfl, rfl, rfl, rfl⟩

theorem nameRound_inr {behind : Nat} {body : Str}
    (hname : firstName allowSpaces line start = .ok (name, behind)) (hk : keyword name = none)
    (hl : macros.lookup name = some body) :
    nameRound macros allowSpaces true line start = .inr body := by
  rcases nameRound_cases macros true hname with ⟨v, -, hnone⟩ | ⟨body', h, -, -, hl'⟩
  · rw [hnone rfl hk] at hl
    cases hl
  · obtain rfl : body' = body := Option.some.inj (hl'.symm.trans hl)
    exact h

/-- As long as the names go on, so does the parsing. -/
theorem parseValueName_of_nth {behind : Nat}
    (hname : firstName allowSpaces line start = .ok (name, behind))
    (h : Chain.nth (macros.next allowSpaces) (n + 1) name ≠ none) :
    parseValueName macros allowSpaces true n line start = none := by
  induction n generalizing line start name behind with
  | zero =>
    obtain ⟨last, h⟩ := Option.ne_none_iff_exists'.mp h
    obtain ⟨name', hnext, -⟩ := Option.bind_eq_some_iff.mp h
    obtain ⟨hk, body, -, hl, -⟩ := next_eq_some.mp hnext
    exact parseValueName_inr_zero (nameRound_inr hname hk hl)
  | succ n ih =>
    obtain ⟨last, h⟩ := Option.ne_none_iff_exists'.mp h
    obtain ⟨name', hnext, h⟩ := Option.bind_eq_some_iff.mp h
    obtain ⟨hk, body, _, hl, hbody⟩ := next_eq_some.mp hnext
    rw [parseValueName_inr (nameRound_inr hname hk hl)]
    exact ih hbody (Option.ne_none_iff_exists'.mpr ⟨last, h⟩)

/-- As long as the parsing goes on, so do the names. -/
theorem nth_of_parseValueName {behind : Nat}
    (hname : firstName allowSpaces line start = .ok (name, behind))
    (h : parseValueName macros allowSpaces true n line start = none) :
    Chain.nth (macros.next allowSpaces) n name ≠ none := by
  induction n generalizing line start name behind with
  | zero => exact Option.some_ne_none _
  | succ n ih =>
    rcases nameRound_cases macros true hname with ⟨v, hround, -⟩ | ⟨body, hround, -, hk, hl⟩
    · rw [parseValueName_inl hround] at h
      cases h
    · rw [parseValueName_inr hround] at h
      rcases hbody : firstName allowSpaces body 0 with e | ⟨name', behind'⟩
      · rw [parseValueName_inl (nameRound_error hbody)] at h
        cases h
      · rw [Chain.nth, next_eq_some.mpr ⟨hk, body, behind', hl, hbody⟩]
        exact ih hbody h

/-- **Macro expansion** ends exactly for the lines whose name does not lead into a cycle of macros. -/
theorem parseValueName_iff (macros : Macros) (allowSpaces named : Bool) (line : Str) (start : Nat) :
    (∃ n r, parseValueName macros allowSpaces named n line start = some r) ↔
      ¬ macros.Recursive allowSpaces named line start := by
  constructor
  · rintro ⟨n, r, hr⟩ ⟨rfl, name, behind, hname, hcyclic⟩
    rw [parseValueName_of_nth hname (Chain.nth_ne_none_of_cyclic hcyclic _)] at hr
    cases hr
  · intro h
    rcases hname : firstName allowSpaces line start with e | ⟨name, behind⟩
    · exact ⟨0, .error e, parseValueName_inl (nameRound_error hname)⟩
    · rcases nameRound_cases macros named hname with ⟨v, hround, -⟩ | ⟨_, -, rfl, -⟩
      · exact ⟨0, .ok v, parseValueName_inl hround⟩
      · have hends : Chain.nth (macros.next allowSpaces) _ name = none :=
          (Chain.ends_iff fun _ _ => next_mem).mpr
            fun hcyclic => h ⟨rfl, name, behind, hname, hcyclic⟩
        exact ⟨_, Option.ne_none_iff_exists'.mp fun hn => nth_of_parseValueName hname hn hends⟩

/-- The lines `define loop loop x` and `loop y`. -/
theorem parseValueName_not : ¬ ∀ (macros : Macros) (define line : Str),
    parseDefine [] define 7 = .ok macros →
      ∃ n r, parseValueName macros false true n line 0 = some r := by
  intro h
  have hdef : parseDefine [] "define loop loop x".toList 7
      = .ok [("loop".toList, "loop x".toList)] := by decide +kernel
  have hstep : Macros.next [("loop".toList, "loop x".toList)] false "loop".toList
      = some "loop".toList := by decide +kernel
  refine (parseValueName_iff _ _ _ _ _).mp (h _ _ "loop y".toList hdef)
    ⟨rfl, "loop".toList, 5, ?_, _, .refl, .single hstep⟩
  decide +kernel

end Proofs

end UgTrain
