import UgTrain.CLib.Lines
import UgTrain.FifoLemmas

/-!
# Fields of messages (`parse_dynmem_buf`, forward mode)

The fields of a message are searched and scanned in the whole buffer, of which the message is the first
line. A field that is missing in the line is looked for in the following ones (`NumsLeak`).

* `scanFields`, `scanNums`: the numbers of the fields, as a function of the text.
* `linesText`: the lines of a buffer, each with its line break.
* `traceLines`: what the message loop does line by line, up to a parse error.
-/

namespace UgTrain

open CLib

/-! ## Fields of a text -/

/-- A field behind a `;`: its letter and the format of its number. -/
abbrev FieldFmt := Char × NumFmt

def scanFields : List FieldFmt → Str → Option (List (BitVec 64))
  | [], _ => some []
  | (ch, fmt) :: fs, t =>
    (strchr t ';').bind fun i =>
      if scanChar (t.drop (i + 1)) = some ch then
        (fmt.scan (t.drop (i + 2))).bind fun v => (scanFields fs (t.drop (i + 2))).map (v :: ·)
      else none

/-- The first number, and the fields behind it. -/
def scanNums (fmt : NumFmt) (fs : List FieldFmt) (t : Str) : Option (List (BitVec 64)) :=
  (fmt.scan t).bind fun v => (scanFields fs t).map (v :: ·)

/-- A field is missing in the line `l`, and it and those behind it are found in the text `t` that
follows the line. -/
def FieldsLeak (t : Str) : List FieldFmt → Str → Prop
  | [], _ => False
  | (ch, fmt) :: fs, l =>
    match strchr l ';' with
    | none => (scanFields ((ch, fmt) :: fs) t).isSome
    | some i => scanChar (l.drop (i + 1)) = some ch ∧
        if fmt.Open (l.drop (i + 2)) then (fmt.resume t).isSome ∧ (scanFields fs t).isSome
        else (fmt.scan (l.drop (i + 2) ++ ['\n'])).isSome ∧ FieldsLeak t fs (l.drop (i + 2))

/-- The same from the first number on. -/
def NumsLeak (t : Str) (fmt : NumFmt) (fs : List FieldFmt) (l : Str) : Prop :=
  if fmt.Open l then (fmt.resume t).isSome ∧ (scanFields fs t).isSome
  else (fmt.scan (l ++ ['\n'])).isSome ∧ FieldsLeak t fs l

/-- What is found with and without a text: if `P`, only with it, and otherwise the same. -/
def OnlyWith {α : Type} (P : Prop) (x y : Option α) : Prop :=
  (P → x.isSome ∧ y = none) ∧ (¬ P → x = y)

section Fields

variable {α β : Type} {P : Prop} {x y : Option α} {fmt : NumFmt} {fs : List FieldFmt} {ch : Char}
  {l t : Str}

theorem OnlyWith.map (h : OnlyWith P x y) (f : α → β) : OnlyWith P (x.map f) (y.map f) := by
  refine ⟨fun hp => ?_, fun hp => by rw [h.2 hp]⟩
  obtain ⟨hx, hy⟩ := h.1 hp
  rw [hy, Option.isSome_map]
  exact ⟨hx, rfl⟩

theorem onlyWith_isSome (hy : y = none) : OnlyWith (x.isSome : Prop) x y :=
  ⟨fun hx => ⟨hx, hy⟩, fun hx => by rw [hy]; simpa using hx⟩

theorem onlyWith_false (h : x = y) (hp : ¬ P) : OnlyWith P x y := ⟨fun h' => absurd h' hp, fun _ => h⟩

theorem scanFields_cons : scanFields ((ch, fmt) :: fs) t = (strchr t ';').bind fun i =>
    if scanChar (t.drop (i + 1)) = some ch then scanNums fmt fs (t.drop (i + 2)) else none := rfl

theorem fieldsLeak_cons {i : Nat} (hi : strchr l ';' = some i) :
    FieldsLeak t ((ch, fmt) :: fs) l ↔
      scanChar (l.drop (i + 1)) = some ch ∧ NumsLeak t fmt fs (l.drop (i + 2)) := by
  simp only [FieldsLeak, hi, NumsLeak]

/-! ### Searching in a line and behind it -/

theorem strchr_append_some {c : Char} {i : Nat} (h : strchr l c = some i) :
    strchr (l ++ t) c = some i := by
  induction l generalizing i with
  | nil => cases h
  | cons x l ih =>
    simp only [List.cons_append, strchr] at h ⊢
    split
    · rename_i hx
      rw [if_pos hx] at h
      exact h
    · rename_i hx
      rw [if_neg hx] at h
      split
      · rename_i h0
        rw [if_pos h0] at h
        cases h
      · rename_i h0
        rw [if_neg h0] at h
        obtain ⟨j, hj, rfl⟩ := Option.map_eq_some_iff.mp h
        rw [ih hj]
        rfl

theorem strchr_append_of_not_mem {c : Char} (hc : c ∉ l) (hn : nul ∉ l) :
    strchr (l ++ t) c = (strchr t c).map (l.length + ·) := by
  induction l with
  | nil => simp
  | cons x l ih =>
    simp only [List.mem_cons, not_or] at hc hn
    simp only [List.cons_append, strchr, if_neg (Ne.symm hc.1), if_neg (Ne.symm hn.1), ih hc.2 hn.2,
      Option.map_map, List.length_cons]
    refine congrArg (Option.map · _) (funext fun i => ?_)
    simp only [Function.comp_apply]
    omega

theorem strchr_none_iff_not_mem (hl : IsLine l) {c : Char} (hc : c ≠ nul) :
    strchr l c = none ↔ c ∉ l := by
  rw [strchr_eq_none hc, cstr_of_not_mem hl.2]

theorem IsLine.drop (hl : IsLine l) (n : Nat) : IsLine (l.drop n) :=
  ⟨fun h => hl.1 (List.mem_of_mem_drop h), fun h => hl.2 (List.mem_of_mem_drop h)⟩

/-- Without a `;` in the line, the fields are those of the text behind it. -/
theorem scanFields_no_sep (hl : IsLine l) (hs : ';' ∉ l) :
    scanFields fs (l ++ '\n' :: t) = scanFields fs t := by
  cases fs with
  | nil => rfl
  | cons f fs =>
    obtain ⟨ch, fmt⟩ := f
    have hl' : nul ∉ l ++ ['\n'] := by
      rw [List.mem_append, not_or]
      exact ⟨hl.2, by decide⟩
    have hs' : ';' ∉ l ++ ['\n'] := by simp [hs]
    have hsplit : l ++ '\n' :: t = (l ++ ['\n']) ++ t := by simp
    rw [hsplit]
    generalize l ++ ['\n'] = m at hl' hs' ⊢
    rw [scanFields_cons, scanFields_cons, strchr_append_of_not_mem hs' hl', Option.bind_map]
    refine congrArg (Option.bind _) (funext fun i => ?_)
    simp only [Function.comp_apply, Nat.add_assoc, List.drop_length_add_append]

theorem nums_line (hl : IsLine l)
    (hfs : OnlyWith (FieldsLeak t fs l) (scanFields fs (l ++ '\n' :: t))
      (scanFields fs (l ++ ['\n']))) :
    OnlyWith (NumsLeak t fmt fs l) (scanNums fmt fs (l ++ '\n' :: t))
      (scanNums fmt fs (l ++ ['\n'])) := by
  unfold NumsLeak scanNums
  by_cases ho : fmt.Open l
  · have hsep : ';' ∉ l := ho.not_mem (by cases fmt <;> decide) (by decide)
    rw [if_pos ho, NumFmt.scan_open ho, NumFmt.scan_open_line ho, scanFields_no_sep hl hsep]
    cases fmt.resume t with
    | none => exact onlyWith_false rfl (by simp)
    | some v =>
      rw [Option.bind_some, Option.bind_none]
      simpa using onlyWith_isSome (x := (scanFields fs t).map (v :: ·)) rfl
  · rw [if_neg ho, NumFmt.scan_line (t := t) ho]
    cases fmt.scan (l ++ ['\n']) with
    | none => exact onlyWith_false rfl (by simp)
    | some v =>
      simp only [Option.bind_some, Option.isSome_some, true_and]
      exact hfs.map _

/-- **Fields of a line**: those that are missing in the line are looked for behind it. -/
theorem fields_line (hl : IsLine l) (hch : ∀ f ∈ fs, f.1 ≠ '\n') :
    OnlyWith (FieldsLeak t fs l) (scanFields fs (l ++ '\n' :: t)) (scanFields fs (l ++ ['\n'])) := by
  induction fs generalizing l with
  | nil => exact onlyWith_false rfl id
  | cons f fs ih =>
    obtain ⟨ch, fmt⟩ := f
    cases hi : strchr l ';' with
    | none =>
      have hsep : ';' ∉ l := (strchr_none_iff_not_mem hl (by decide)).mp hi
      simp only [FieldsLeak, hi, scanFields_no_sep hl hsep]
      exact onlyWith_isSome rfl
    | some i =>
      have hlt : i + 1 ≤ l.length := strchr_lt hi
      have hdrop : ∀ k u, k ≤ l.length → (l ++ '\n' :: u).drop k = l.drop k ++ '\n' :: u :=
        fun k u h => List.drop_append_of_le_length h
      rw [fieldsLeak_cons hi, scanFields_cons, scanFields_cons, strchr_append_some hi,
        strchr_append_some hi, Option.bind_some, Option.bind_some, hdrop _ t hlt, hdrop _ [] hlt]
      have hfirst : ∀ u, scanChar (l.drop (i + 1) ++ '\n' :: u) = some ch ↔
          scanChar (l.drop (i + 1)) = some ch := by
        intro u
        cases hd : l.drop (i + 1) with
        | nil => simpa [scanChar, nul] using (hch (ch, fmt) List.mem_cons_self).symm
        | cons x w => rfl
      by_cases hc : scanChar (l.drop (i + 1)) = some ch
      · have hlt' : i + 2 ≤ l.length := by
          by_contra hge
          rw [List.drop_eq_nil_of_le (by omega)] at hc
          cases hc
        rw [if_pos ((hfirst t).mpr hc), if_pos ((hfirst []).mpr hc), hdrop _ t hlt', hdrop _ [] hlt']
        simp only [hc, true_and]
        exact nums_line (hl.drop _) (ih (hl.drop _) fun f hf => hch f (List.mem_cons_of_mem _ hf))
      · rw [if_neg (mt (hfirst t).mp hc), if_neg (mt (hfirst []).mp hc)]
        exact onlyWith_false rfl (fun h => hc h.1)

theorem scanFields_append_nul (n : Nat) :
    scanFields fs (t ++ List.replicate n nul) = scanFields fs t := by
  induction fs generalizing t with
  | nil => rfl
  | cons f fs ih =>
    obtain ⟨ch, fmt⟩ := f
    rw [scanFields_cons, scanFields_cons, strchr_append_nul (by decide)]
    cases hi : strchr t ';' with
    | none => rfl
    | some i =>
      have hlt : i + 1 ≤ t.length := strchr_lt hi
      rw [Option.bind_some, Option.bind_some, List.drop_append_of_le_length hlt]
      by_cases hlt' : i + 2 ≤ t.length
      · rw [List.drop_append_of_le_length hlt', scanNums, NumFmt.scan_append_nul, ih]
        cases hd : t.drop (i + 1) with
        | nil =>
          rw [List.drop_eq_nil_iff] at hd
          omega
        | cons x w => rfl
      · rw [List.drop_eq_nil_of_le (by omega)]
        cases n <;> rfl

end Fields

/-! ## Messages -/

/-- The fields of an 'm' message behind the address. -/
def PMask.fields (pmask : PMask) : List FieldFmt :=
  (if pmask.s then [('s', .dec)] else []) ++ ((if pmask.c then [('c', .ptr)] else []) ++
    ((if pmask.o then [('o', .ptr)] else []) ++ []))

/-- The fields behind the first number of the message at the start of a text, if it has numbers. -/
def msgFields {σ : Type} (cb : ParseCb σ) (pmask : PMask) (t : Str) : Option (List FieldFmt) :=
  match scanChar t with
  | some 'm' => if cb.mf.isSome then some pmask.fields else none
  | some 'f' => if cb.ff.isSome then some [] else none
  | some 'S' => if cb.sf.isSome then some [] else none
  | _ => none

/-- The number of a field that was asked for, and 0 for another one. -/
def pick {α : Type} (on : Bool) (g : BitVec 64 → List (BitVec 64) → α) (vs : List (BitVec 64)) : α :=
  if on then g (vs.headD 0) vs.tail else g 0 vs

def mallocCall (pmask : PMask) (codeOffs : Ptr) (vs : List (BitVec 64)) : Call :=
  pick pmask.s (fun memSize => pick pmask.c fun codeAddr => pick pmask.o fun stackOffs _ =>
    .mf ⟨[], 0, 0⟩ (vs.headD 0) memSize codeOffs codeAddr stackOffs) vs.tail

/-- The call for the numbers of a message. -/
def numsCall (pmask : PMask) (codeOffs : Ptr) (ch : Option Char) (vs : List (BitVec 64)) : Call :=
  match ch with
  | some 'm' => mallocCall pmask codeOffs vs
  | some 'f' => .ff (vs.headD 0)
  | _ => if vs.headD 0 = 0 then .skip else .sf (vs.headD 0)

/-- A call without the position in the buffer. -/
def Call.bare : Call → Call
  | .mf _ memAddr memSize codeOffs codeAddr stackOffs =>
    .mf ⟨[], 0, 0⟩ memAddr memSize codeOffs codeAddr stackOffs
  | call => call

/-- The message at the start of `t`, whose line has `n` characters. -/
def scanLine {σ : Type} (cb : ParseCb σ) (pmask : PMask) (codeOffs : Ptr) (t : Str) (n : Nat) :
    Option Call :=
  (scanMsg cb pmask codeOffs t 0 n).toOption.map Call.bare

section Messages

variable {σ : Type} {cb : ParseCb σ} {pmask : PMask} {codeOffs : Ptr} {fmt : NumFmt}
  {fs : List FieldFmt} {ch : Char} {ibuf l t : Str} {pstart : Nat}

theorem scanAt_toOption : (scanAt fmt.sscanf ibuf pstart).toOption = fmt.scan (ibuf.drop pstart) := by
  unfold scanAt NumFmt.scan
  cases fmt.sscanf (ibuf.drop pstart) <;> rfl

theorem toOption_bind {ε α β : Type} (x : Except ε α) (f : α → Except ε β) :
    (x >>= f).toOption = x.toOption.bind fun a => (f a).toOption := by
  cases x <;> rfl

/-- A field, and the ones behind it. -/
theorem scanField_bind {on : Bool} {k : Nat × BitVec 64 → Except Nat Call}
    {g : BitVec 64 → List (BitVec 64) → Call} (hk : ∀ p v, (k (p, v)).toOption.map Call.bare =
      (scanFields fs (ibuf.drop p)).map (g v)) :
    (scanField on ch fmt.sscanf ibuf pstart >>= k).toOption.map Call.bare =
      (scanFields ((if on then [(ch, fmt)] else []) ++ fs) (ibuf.drop pstart)).map (pick on g) := by
  cases on with
  | false => exact hk pstart 0
  | true =>
    rw [if_pos rfl, List.singleton_append, scanFields_cons]
    unfold scanField
    rw [if_pos rfl]
    cases strchr (ibuf.drop pstart) ';' with
    | none => rfl
    | some i =>
      simp only [Option.bind_some, List.drop_drop]
      rw [show pstart + i + 1 = pstart + (i + 1) from rfl]
      by_cases hc : scanChar (ibuf.drop (pstart + (i + 1))) = some ch
      · rw [if_pos hc, if_pos hc, scanNums, toOption_bind]
        have hat : (scanAt fmt.sscanf ibuf (pstart + (i + 1) + 1)).toOption =
            fmt.scan (ibuf.drop (pstart + (i + 2))) := scanAt_toOption
        cases hs : scanAt fmt.sscanf ibuf (pstart + (i + 1) + 1) with
        | error p =>
          rw [hs] at hat
          rw [← hat]
          rfl
        | ok v =>
          rw [hs] at hat
          rw [← hat]
          have := hk (pstart + (i + 1) + 1) v
          simp only [Except.map, Except.toOption, Option.bind_some, Option.map_map] at this ⊢
          rw [this]
          rfl
      · rw [if_neg hc, if_neg hc]
        rfl

theorem scanMalloc_bare {msgStart msgEnd : Nat} :
    (scanMalloc pmask codeOffs ibuf msgStart msgEnd).toOption.map Call.bare =
      (scanNums .ptr pmask.fields (ibuf.drop (msgStart + 1))).map (mallocCall pmask codeOffs) := by
  unfold scanMalloc scanNums
  have hat : (scanAt scanPtr ibuf (msgStart + 1)).toOption =
      NumFmt.ptr.scan (ibuf.drop (msgStart + 1)) := @scanAt_toOption .ptr _ _
  rw [toOption_bind, hat]
  cases NumFmt.ptr.scan (ibuf.drop (msgStart + 1)) with
  | none => rfl
  | some memAddr =>
    rw [Option.bind_some, Option.bind_some, Option.map_map,
      show scanULong 10 = NumFmt.dec.sscanf from rfl, show scanPtr = NumFmt.ptr.sscanf from rfl]
    refine scanField_bind (g := fun memSize => pick pmask.c fun codeAddr =>
      pick pmask.o fun stackOffs _ => .mf ⟨[], 0, 0⟩ memAddr memSize codeOffs codeAddr stackOffs)
      fun p memSize => ?_
    refine scanField_bind (g := fun codeAddr => pick pmask.o fun stackOffs _ =>
      .mf ⟨[], 0, 0⟩ memAddr memSize codeOffs codeAddr stackOffs) fun p codeAddr => ?_
    refine scanField_bind (g := fun stackOffs _ =>
      .mf ⟨[], 0, 0⟩ memAddr memSize codeOffs codeAddr stackOffs) fun p stackOffs => ?_
    rfl

/-- The message has numbers, and what is called depends on these. -/
theorem scanLine_of_fields {n : Nat} (h : msgFields cb pmask t = some fs) :
    scanLine cb pmask codeOffs t n =
      (scanNums .ptr fs (t.drop 1)).map (numsCall pmask codeOffs (scanChar t)) := by
  have hone : ∀ (g : BitVec 64 → Call), (scanAt scanPtr t 1).toOption.map g =
      (scanNums .ptr [] (t.drop 1)).map fun vs => g (vs.headD 0) := by
    intro g
    have hat : (scanAt scanPtr t 1).toOption = NumFmt.ptr.scan (t.drop 1) :=
      @scanAt_toOption .ptr _ _
    rw [hat, scanNums]
    cases NumFmt.ptr.scan (t.drop 1) <;> rfl
  unfold msgFields at h
  unfold scanLine scanMsg
  rw [List.drop_zero]
  split at h
  · rename_i hc
    split at h
    · rename_i hcb
      cases h
      rw [hc]
      rw [if_pos hcb]
      exact scanMalloc_bare
    · cases h
  · rename_i hc
    split at h
    · rename_i hcb
      cases h
      rw [hc]
      rw [if_pos hcb]
      refine Eq.trans ?_ (hone .ff)
      cases scanAt scanPtr t 1 <;> rfl
    · cases h
  · rename_i hc
    split at h
    · rename_i hcb
      cases h
      rw [hc]
      rw [if_pos hcb]
      refine Eq.trans ?_ (hone fun v => if v = 0 then .skip else .sf v)
      unfold scanStackEnd
      cases scanAt scanPtr t 1 with
      | error p => rfl
      | ok v =>
        rw [Run.ok_bind]
        simp only [pure, Except.pure, Except.toOption, Option.map_some]
        split <;> rfl
    · cases h
  · cases h

theorem scanMsg_of_none {c : Char} {n : Nat} (ht : scanChar t = some c)
    (h : msgFields cb pmask t = none) : scanMsg cb pmask codeOffs t 0 n =
      if c = 'l' ∧ cb.lf.isSome then scanLib t 0 n else .ok .skip := by
  unfold msgFields at h
  unfold scanMsg
  rw [List.drop_zero, ht]
  rw [ht] at h
  split
  · rename_i hc
    cases hc
  · rename_i hc
    cases hc
    have hcb : ¬ cb.mf.isSome := fun hcb => by simp [hcb] at h
    rw [if_neg hcb, if_neg (by simp)]
  · rename_i hc
    cases hc
    have hcb : ¬ cb.ff.isSome := fun hcb => by simp [hcb] at h
    rw [if_neg hcb, if_neg (by simp)]
  · rename_i hc
    cases hc
    simp
  · rename_i hc
    cases hc
    have hcb : ¬ cb.sf.isSome := fun hcb => by simp [hcb] at h
    rw [if_neg hcb, if_neg (by simp)]
  · rename_i hl _ hc
    cases hc
    rw [if_neg fun hc => hl hc.1]

/-- A message without numbers is its line. -/
theorem scanLine_of_none (hl : IsLine l) (h : msgFields cb pmask (l ++ '\n' :: t) = none) :
    scanLine cb pmask codeOffs (l ++ '\n' :: t) l.length =
      scanLine cb pmask codeOffs (l ++ ['\n']) l.length := by
  have hfirst : ∃ c, ∀ u, scanChar (l ++ '\n' :: u) = some c := by
    cases l with
    | nil => exact ⟨'\n', fun u => rfl⟩
    | cons c w =>
      have hc : c ≠ nul := fun h0 => hl.2 (h0 ▸ List.mem_cons_self)
      exact ⟨c, fun u => if_neg hc⟩
  obtain ⟨c, hc⟩ := hfirst
  have h' : msgFields cb pmask (l ++ ['\n']) = none := by
    unfold msgFields at h ⊢
    rwa [hc] at h ⊢
  unfold scanLine
  rw [scanMsg_of_none (hc t) h, scanMsg_of_none (hc []) h']
  split
  · -- the name of a library is in the line
    rename_i hlib
    cases l with
    | nil =>
      have := hc []
      cases this
      cases hlib.1
    | cons x w =>
      cases w with
      | nil => rfl
      | cons y w => simp [scanLib]
  · rfl

/-- What is behind the end of the text does not matter. -/
theorem scanLine_append_nul (hl : IsLine l) (n : Nat) :
    scanLine cb pmask codeOffs (l ++ '\n' :: t ++ List.replicate n nul) l.length =
      scanLine cb pmask codeOffs (l ++ '\n' :: t) l.length := by
  have hchar : scanChar (l ++ '\n' :: t ++ List.replicate n nul) = scanChar (l ++ '\n' :: t) := by
    cases l <;> rfl
  have hfields : msgFields cb pmask (l ++ '\n' :: t ++ List.replicate n nul) =
      msgFields cb pmask (l ++ '\n' :: t) := by
    unfold msgFields
    rw [hchar]
  cases h : msgFields cb pmask (l ++ '\n' :: t) with
  | some fs =>
    rw [scanLine_of_fields h, scanLine_of_fields (hfields.trans h), hchar,
      List.drop_append_of_le_length (by simp; omega), scanNums, scanNums, NumFmt.scan_append_nul,
      scanFields_append_nul]
  | none =>
    have h' := hfields.trans h
    rw [scanLine_of_none hl h]
    rw [List.append_assoc, List.cons_append] at h' ⊢
    exact scanLine_of_none hl h'

end Messages

/-- A line whose fields are completed by the text behind it. -/
def LineLeaks {σ : Type} (cb : ParseCb σ) (pmask : PMask) (t l : Str) : Prop :=
  ∃ fs, msgFields cb pmask l = some fs ∧ NumsLeak t .ptr fs (l.drop 1)

section Line

variable {σ : Type} {cb : ParseCb σ} {pmask : PMask} {codeOffs : Ptr} {l t : Str}

theorem PMask.fields_ne_newline : ∀ f ∈ pmask.fields, f.1 ≠ '\n' := by
  obtain ⟨s, c, o⟩ := pmask
  revert s c o
  decide

/-- **A line** gives the same call with and without the text behind it, unless this text completes
it. -/
theorem scanLine_onlyWith (hl : IsLine l) : OnlyWith (LineLeaks cb pmask t l)
    (scanLine cb pmask codeOffs (l ++ '\n' :: t) l.length)
    (scanLine cb pmask codeOffs (l ++ ['\n']) l.length) := by
  cases l with
  | nil =>
    refine onlyWith_false rfl ?_
    rintro ⟨fs, h, -⟩
    cases h
  | cons c w =>
    have hfields : ∀ u, msgFields cb pmask (c :: w ++ '\n' :: u) = msgFields cb pmask (c :: w) :=
      fun u => rfl
    cases h : msgFields cb pmask (c :: w) with
    | none =>
      refine onlyWith_false (scanLine_of_none hl ((hfields t).trans h)) ?_
      rintro ⟨fs, h', -⟩
      cases h.symm.trans h'
    | some fs =>
      have hw : IsLine w := hl.drop 1
      have hch : ∀ f ∈ fs, f.1 ≠ '\n' := by
        unfold msgFields at h
        split at h
        · split at h <;> cases h
          exact PMask.fields_ne_newline
        · split at h <;> cases h
          simp
        · split at h <;> cases h
          simp
        · cases h
      rw [scanLine_of_fields ((hfields t).trans h), scanLine_of_fields ((hfields []).trans h)]
      have hiff : LineLeaks cb pmask t (c :: w) ↔ NumsLeak t .ptr fs w := by
        simp [LineLeaks, h]
      unfold OnlyWith
      rw [hiff]
      exact (nums_line hw (fields_line hw hch)).map _

end Line

/-! ## Lines of a buffer -/

/-- Lines, each with its line break. -/
def linesText : List Str → Str
  | [] => []
  | l :: ls => l ++ '\n' :: linesText ls

/-- Callbacks that take down what they are called with; a call that is not asked for is `none`. -/
def ParseCb.recorder (mf ff lf sf : Bool) : ParseCb (List Call) where
  mf := if mf then some fun _ memAddr memSize codeOffs codeAddr stackOffs calls =>
    .ok (calls ++ [.mf ⟨[], 0, 0⟩ memAddr memSize codeOffs codeAddr stackOffs]) else none
  ff := if ff then some fun memAddr calls => .ok (calls ++ [.ff memAddr]) else none
  lf := if lf then some fun libName calls => .ok (calls ++ [.lf libName]) else none
  sf := if sf then some fun stackEnd calls => .ok (calls ++ [.sf stackEnd]) else none

/-- What comes of each line, up to a parse error. -/
def traceLines (scan : Str → List Str → Option Call) : List Str → List (Option Call)
  | [] => []
  | l :: ls =>
    match scan l ls with
    | none => [none]
    | some call => some call :: traceLines scan ls

section Trace

variable {σ : Type} (cb : ParseCb σ) (pmask : PMask) (codeOffs : Ptr)

/-- The lines as the parser scans them: in front of those that follow. -/
def bufTrace : List Str → List (Option Call) :=
  traceLines fun l ls => scanLine cb pmask codeOffs (linesText (l :: ls)) l.length

/-- **The lines in isolation.** -/
def lineTrace : List Str → List (Option Call) :=
  traceLines fun l _ => scanLine cb pmask codeOffs (linesText [l]) l.length

/-- A line that is reached is completed by the lines behind it. -/
def LinesLeak (ls : List Str) : Prop :=
  ∃ pre l post, ls = pre ++ l :: post ∧
    (∀ l' ∈ pre, (scanLine cb pmask codeOffs (linesText [l']) l'.length).isSome) ∧
    LineLeaks cb pmask (linesText post) l

/-- The callbacks that are called for a line. -/
def madeCalls (trace : List (Option Call)) : List Call :=
  (trace.filterMap id).filter (· ≠ .skip)

end Trace

section Buffer

variable {mf ff lf sf : Bool} {pmask : PMask} {codeOffs : Ptr} {l : Str} {ls : List Str}

/-- A call is only made where there is a callback. -/
theorem scanMsg_asked {call : Call} {n : Nat} {t : Str}
    (h : scanMsg (.recorder mf ff lf sf) pmask codeOffs t 0 n = .ok call) :
    match call with
    | .mf .. => mf = true
    | .ff _ => ff = true
    | .lf _ => lf = true
    | .sf _ => sf = true
    | .skip => True := by
  have hset : ∀ {α : Type} (b : Bool) (a : α), (if b then some a else none).isSome → b = true := by
    intro α b a hb
    cases b with
    | true => rfl
    | false => cases hb
  unfold scanMsg at h
  split at h
  · cases h
  · split at h
    · rename_i hcb
      obtain ⟨memAddr, -, h⟩ := Run.bind_eq_ok.mp h
      obtain ⟨⟨p₁, memSize⟩, -, h⟩ := Run.bind_eq_ok.mp h
      obtain ⟨⟨p₂, codeAddr⟩, -, h⟩ := Run.bind_eq_ok.mp h
      obtain ⟨⟨p₃, stackOffs⟩, -, h⟩ := Run.bind_eq_ok.mp h
      cases h
      exact hset mf _ hcb
    · cases h
      trivial
  · split at h
    · rename_i hcb
      cases hs : scanAt scanPtr t (0 + 1) with
      | error p =>
        rw [hs] at h
        cases h
      | ok v =>
        rw [hs] at h
        cases h
        exact hset ff _ hcb
    · cases h
      trivial
  · split at h
    · rename_i hcb
      unfold scanLib at h
      dsimp only at h
      split at h
      · cases h
        exact hset lf _ hcb
      · cases h
    · cases h
      trivial
  · split at h
    · rename_i hcb
      obtain ⟨v, -, h⟩ := Run.bind_eq_ok.mp h
      by_cases h0 : v = 0
      · rw [if_pos h0] at h
        cases h
        trivial
      · rw [if_neg h0] at h
        cases h
        exact hset sf _ hcb
    · cases h
      trivial
  · cases h
    trivial

/-- A call that the parser makes is taken down. -/
theorem recorder_call {call : Call} {calls : List Call} {n : Nat} {t : Str}
    (h : scanMsg (.recorder mf ff lf sf) pmask codeOffs t 0 n = .ok call) :
    (ParseCb.recorder mf ff lf sf).call call calls =
      .ok (calls ++ madeCalls [some call.bare]) := by
  have hset := scanMsg_asked h
  cases call with
  | skip => rw [madeCalls, ParseCb.call]; simp [Call.bare]
  | mf | ff | lf | sf =>
    dsimp only at hset
    subst hset
    rfl

theorem madeCalls_cons (call : Call) (trace : List (Option Call)) :
    madeCalls (some call :: trace) = madeCalls [some call] ++ madeCalls trace := by
  simp only [madeCalls, List.filterMap_cons, id_eq, List.filterMap_nil, ← List.filter_append,
    List.singleton_append]

/-- **The message loop** makes the calls of its trace and stops at a parse error. -/
theorem parseLoop_trace {n t : Nat} (mf ff lf sf : Bool) (pmask : PMask) (codeOffs : Ptr)
    (hls : ∀ l ∈ ls, IsLine l) (hn : (linesText ls).length ≤ n) (ht : t ≤ n) (calls : List Call) :
    ∃ res, parseLoop (.recorder mf ff lf sf) pmask codeOffs (padded n (linesText ls))
        (linesText ls).length t calls = .ok res ∧
      res.acc = calls ++ madeCalls (bufTrace (.recorder mf ff lf sf) pmask codeOffs ls) ∧
      (res.err.isSome ↔ none ∈ bufTrace (.recorder mf ff lf sf) pmask codeOffs ls) := by
  induction ls generalizing t calls with
  | nil =>
    refine ⟨_, parseLoop_none rfl, ?_, ?_⟩
    · simp [madeCalls, bufTrace, traceLines]
    · simp [bufTrace, traceLines]
  | cons l ls ih =>
    have hl : IsLine l := hls l List.mem_cons_self
    have hscan : scanLine (.recorder mf ff lf sf) pmask codeOffs (padded n (linesText (l :: ls)))
        l.length = scanLine (.recorder mf ff lf sf) pmask codeOffs (linesText (l :: ls)) l.length :=
      scanLine_append_nul hl _
    have htrace : bufTrace (.recorder mf ff lf sf) pmask codeOffs (l :: ls) =
        match scanLine (.recorder mf ff lf sf) pmask codeOffs (padded n (linesText (l :: ls)))
          l.length with
        | none => [none]
        | some call => some call :: bufTrace (.recorder mf ff lf sf) pmask codeOffs ls := by
      rw [hscan]
      rfl
    have hn' : (linesText ls).length + (l.length + 1) ≤ n := by
      rw [linesText, List.length_append, List.length_cons] at hn
      omega
    cases hm : scanMsg (.recorder mf ff lf sf) pmask codeOffs (padded n (linesText (l :: ls))) 0
        l.length with
    | error p =>
      refine ⟨_, parseLoop_err hl ht hn hm, ?_, ?_⟩
      · rw [htrace, scanLine, hm]
        simp [madeCalls, Except.toOption]
      · rw [htrace, scanLine, hm]
        simp [Except.toOption]
    | ok call =>
      obtain ⟨res, hres, hacc, herr⟩ := ih (fun l' hl' => hls l' (List.mem_cons_of_mem l hl'))
        (by omega) (show l.length + 1 ≤ n by omega) (calls ++ madeCalls [some call.bare])
      refine ⟨res, (parseLoop_line hl hn hm (recorder_call hm)).trans hres, ?_, ?_⟩
      · rw [hacc, htrace, scanLine, hm, List.append_assoc, ← madeCalls_cons]
        rfl
      · rw [herr, htrace, scanLine, hm]
        simp [Except.toOption]

/-- The traces are the same exactly if no line is completed by those behind it. -/
theorem bufTrace_eq_iff {σ : Type} {cb : ParseCb σ} (hls : ∀ l ∈ ls, IsLine l) :
    bufTrace cb pmask codeOffs ls = lineTrace cb pmask codeOffs ls ↔
      ¬ LinesLeak cb pmask codeOffs ls := by
  induction ls with
  | nil =>
    refine iff_of_true rfl ?_
    rintro ⟨pre, l, post, h, -⟩
    simp at h
  | cons l ls ih =>
    have honly : OnlyWith (LineLeaks cb pmask (linesText ls) l)
        (scanLine cb pmask codeOffs (linesText (l :: ls)) l.length)
        (scanLine cb pmask codeOffs (linesText [l]) l.length) :=
      scanLine_onlyWith (hls l List.mem_cons_self)
    have ih := ih fun l' hl' => hls l' (List.mem_cons_of_mem l hl')
    unfold bufTrace lineTrace at ih ⊢
    unfold traceLines
    by_cases hleak : LineLeaks cb pmask (linesText ls) l
    · obtain ⟨hx, hy⟩ := honly.1 hleak
      obtain ⟨call, hcall⟩ := Option.isSome_iff_exists.mp hx
      rw [hcall, hy]
      exact iff_of_false (by simp) (not_not.mpr ⟨[], l, ls, rfl, by simp, hleak⟩)
    · rw [honly.2 hleak]
      cases hy : scanLine cb pmask codeOffs (linesText [l]) l.length with
      | none =>
        refine iff_of_true rfl ?_
        rintro ⟨pre, l', post, heq, hpre, hl'⟩
        cases pre with
        | nil =>
          cases heq
          exact hleak hl'
        | cons a pre =>
          cases heq
          have := hpre l List.mem_cons_self
          rw [hy] at this
          cases this
      | some call =>
        dsimp only
        rw [List.cons.injEq, eq_self, true_and, ih, not_iff_not]
        constructor
        · rintro ⟨pre, l', post, rfl, hpre, hl'⟩
          refine ⟨l :: pre, l', post, rfl, fun a ha => ?_, hl'⟩
          rcases List.mem_cons.mp ha with rfl | ha
          · rw [hy]
            rfl
          · exact hpre a ha
        · rintro ⟨pre, l', post, heq, hpre, hl'⟩
          cases pre with
          | nil =>
            cases heq
            exact absurd hl' hleak
          | cons a pre =>
            cases heq
            exact ⟨pre, l', post, rfl, fun a ha => hpre a (List.mem_cons_of_mem _ ha), hl'⟩

/-- **Messages are parsed in isolation** exactly if no line that is reached lacks a field that is found
behind it: then the calls, with all their numbers, are those of the lines alone, and a line that lacks
a field is a parse error. -/
theorem parse_isolated_iff {n ilen tmpIlen : Nat} (mf ff lf sf : Bool) (pmask : PMask)
    (codeOffs : Ptr) (hls : ∀ l ∈ ls, IsLine l) (hlen : (linesText ls).length = ilen + tmpIlen)
    (hn : (linesText ls).length ≤ n) :
    ∃ res, parseDynmemBuf (.recorder mf ff lf sf) (padded n (linesText ls)) ilen tmpIlen pmask codeOffs
        [] = .ok res ∧
      res.acc = madeCalls (bufTrace (.recorder mf ff lf sf) pmask codeOffs ls) ∧
      (res.err.isSome ↔ none ∈ bufTrace (.recorder mf ff lf sf) pmask codeOffs ls) ∧
      (bufTrace (.recorder mf ff lf sf) pmask codeOffs ls =
          lineTrace (.recorder mf ff lf sf) pmask codeOffs ls ↔
        ¬ LinesLeak (.recorder mf ff lf sf) pmask codeOffs ls) := by
  obtain ⟨res, hres, hacc, herr⟩ := parseLoop_trace (t := tmpIlen) mf ff lf sf pmask codeOffs hls hn
    (by omega) []
  refine ⟨res, ?_, hacc, herr, bufTrace_eq_iff hls⟩
  rw [parseDynmemBuf, ← hlen]
  exact hres

end Buffer

/-! ## A line without its fields -/

/-- Two allocations; the first message lacks the size and the code address. -/
def cutLines : List Str :=
  ["m0x20".toList, "m0x40;s8;c0x400".toList]

/-- The same with both messages complete, and a line that is no message behind them. -/
def fullLines : List Str :=
  ["m0x20;s8;c0x400".toList, "m0x40;s8;c0x400".toList, "".toList]

theorem parse_isolated_example :
    ∃ res, parseDynmemBuf (.recorder true true true true) (padded 64 (linesText fullLines)) 0 33 .sc 0
        [] = .ok res ∧
      res.acc = [.mf ⟨[], 0, 0⟩ 0x20 8 0 0x400 0, .mf ⟨[], 0, 0⟩ 0x40 8 0 0x400 0] ∧
      ¬ LinesLeak (.recorder true true true true) .sc 0 fullLines := by
  obtain ⟨res, hres, hacc, -, hiff⟩ := parse_isolated_iff (n := 64) true true true true .sc 0
    (show ∀ l ∈ fullLines, IsLine l by decide) (show _ = 0 + 33 by decide) (by decide)
  refine ⟨res, hres, hacc.trans (by decide), hiff.mp (by decide)⟩

/-- The first message takes its fields from the second one. -/
theorem parse_not_isolated : ¬ ∀ (mf ff lf sf : Bool) (pmask : PMask) (codeOffs : Ptr)
    (ls : List Str) (n ilen tmpIlen : Nat) (res : ParseRes (List Call)), (∀ l ∈ ls, IsLine l) →
    (linesText ls).length = ilen + tmpIlen → (linesText ls).length ≤ n →
    parseDynmemBuf (.recorder mf ff lf sf) (padded n (linesText ls)) ilen tmpIlen pmask codeOffs [] =
      .ok res →
    res.acc = madeCalls (lineTrace (.recorder mf ff lf sf) pmask codeOffs ls) ∧
      (res.err.isSome ↔ none ∈ lineTrace (.recorder mf ff lf sf) pmask codeOffs ls) := by
  intro hall
  obtain ⟨res, hres, hacc, -⟩ := parseLoop_trace (n := 64) (t := 22) true true true true .sc 0
    (show ∀ l ∈ cutLines, IsLine l by decide) (by decide) (by decide) []
  obtain ⟨hline, -⟩ := hall true true true true .sc 0 cutLines 64 0 22 res (by decide) (by decide)
    (by decide) hres
  rw [hacc] at hline
  exact absurd hline (by decide)

end UgTrain
