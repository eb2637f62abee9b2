import UgTrain.CfgFile
import UgTrain.ConfigMsg
import UgTrain.ConfigRule
import UgTrain.HexAddr

/-!
# Adaption (`adapt.cpp`)

A script finds the object sizes and the code addresses of a game that was compiled differently.
`parseAdaptResult` reads what it prints, `takeOverConfig` puts this into the classes and into the
lines of the config, and writes the file anew.

* The output is a C string. Its parts end with `;`, and a number ends there as well, so that it is
  read part by part.
* `adp_size` and `adp_addr` are zero until the output names the class.
* A line number is a `u32` that is taken for an `i32`: a config has less than 2 ^ 31 lines.
* The script is a parameter: its output is `text`. A second run of it, for debugging, is left out.
-/

namespace UgTrain

open CLib

inductive AdaptError where
  /-- `parse_err`. -/
  | parse
  /-- `std::out_of_range`. -/
  | outOfRange
  /-- The config cannot be written. -/
  | write
  deriving DecidableEq, Repr

/-- What the output of the script changes. -/
structure AdaptState where
  /-- `adp_size` and `adp_addr` of each class. -/
  adp : Nat → U32 × Ptr
  procName : Str
  gameCall : Str
  gameBinpath : Str
  cfgLines : List Str

/-- `cfg_lines->at(lnr) = line`. -/
def setLine (cfgLines : List Str) (lnr : Nat) (line : Str) : Except AdaptError (List Str) :=
  if lnr < cfgLines.length then .ok (cfgLines.set lnr line) else .error .outOfRange

namespace AdaptState

/-- `proc_name`. -/
def setProcName (a : AdaptState) (name : Str) : Except AdaptError AdaptState := do
  let cfgLines ← setLine a.cfgLines 0 name
  return { a with
    procName := name
    gameCall := if a.gameCall = a.procName then name else a.gameCall
    cfgLines := cfgLines }

/-- `game_binpath`. -/
def setBinpath (binpathLine : Nat) (a : AdaptState) (path : Str) : Except AdaptError AdaptState :=
  if cppBasename path ≠ a.procName then .error .parse
  else do
    let cfgLines ← setLine a.cfgLines binpathLine ("game_binpath ".toList ++ path)
    return { a with gameBinpath := path, cfgLines := cfgLines }

/-- The name of an object, behind the parts for the game. -/
def parseName (binpathLine : Nat) (a : AdaptState) :
    List Str → Except AdaptError (AdaptState × Str × List Str)
  | name :: value :: field :: fields =>
    if "proc_name".toList <+: name then do
      let a ← a.setProcName value
      parseName binpathLine a (field :: fields)
    else if "game_binpath".toList <+: name then
      -- Without a line of its own, the path is ignored.
      if binpathLine = 0 then parseName binpathLine a (field :: fields)
      else do
        let a ← a.setBinpath binpathLine value
        parseName binpathLine a (field :: fields)
    else .ok (a, name, value :: field :: fields)
  | [name, value] =>
    if "proc_name".toList <+: name ∨ "game_binpath".toList <+: name then .error .parse
    else .ok (a, name, [value])
  | _ => .error .parse

/-- The first class of that name without an address. -/
def findClass (cfg : CfgMem) (a : AdaptState) (name : Str) : Option Nat :=
  cfg.entries.findSome? fun en => en.dynmem.filter fun d =>
    (a.adp d).2 = 0 ∧ (cfg.dynmems[d]?).any (·.name = name)

/-- An object of the output, from behind its name on. -/
def parseObj (cfg : CfgMem) (a : AdaptState) (name : Str) :
    List Str → Except AdaptError (AdaptState × List Str)
  | size :: addr :: fields =>
    match scanULong 16 size, scanPtr addr, findClass cfg a name with
    | some (mallocSize, _), some (codeAddr, _), some d =>
      .ok ({ a with adp := Function.update a.adp d (mallocSize.setWidth 32, codeAddr) }, fields)
    | _, _, _ => .error .parse
  | _ => .error .parse

/-- The objects. -/
def parseObjs (cfg : CfgMem) (binpathLine : Nat) :
    Nat → AdaptState → List Str → Except AdaptError AdaptState
  | 0, a, _ => .ok a
  | n + 1, a, fields => do
    let (a, name, fields) ← parseName binpathLine a fields
    let (a, fields) ← parseObj cfg a name fields
    if n = 0 then return a
    else if fields = [] then throw .parse
    else parseObjs cfg binpathLine n a fields

/-- `parse_adapt_result`. -/
def parseAdaptResult (cfg : CfgMem) (binpathLine : Nat) (a : AdaptState) (text : Str) :
    Except AdaptError AdaptState :=
  match text.splitOn ';' with
  | num :: field :: fields =>
    match scanULong 10 num with
    | some (numObj, _) => parseObjs cfg binpathLine (numObj.setWidth 32).toNat a (field :: fields)
    | none => .error .parse
  | _ => .error .parse

end AdaptState

/-- The line of a class as it is written anew. -/
def DynMemEntry.line (dm : DynMemEntry) : Str :=
  "dynmemstart ".toList ++ dm.name ++ ' ' :: (printDec dm.memSize.toNat ++ ' ' ::
    (printHex dm.codeAddr ++ ' ' :: printHex dm.stackOffs))

/-- What `take_over_config` does for a class. -/
def takeOverClass (adp : Nat → U32 × Ptr) (cfgLine : Nat → Nat) (x : List DynMemEntry × List Str)
    (d : Nat) : Except AdaptError (List DynMemEntry × List Str) :=
  match x.1[d]? with
  | none => .ok x
  | some dm => do
    let dm := { dm with memSize := (adp d).1.setWidth 64, codeAddr := (adp d).2 }
    let cfgLines ← setLine x.2 (cfgLine d) dm.line
    return (x.1.set d dm, cfgLines)

/-- `take_over_config` up to the writing: the classes and the lines. `cfgLine` is the line of each
class, `adpReqLine` the one of `adapt_required`. -/
def takeOverLines (cfg : CfgMem) (adp : Nat → U32 × Ptr) (cfgLine : Nat → Nat) (adpReqLine : Nat)
    (cfgLines : List Str) : Except AdaptError (CfgMem × List Str) := do
  let (dynmems, cfgLines) ←
    (classRefs none cfg.entries).foldlM (takeOverClass adp cfgLine) (cfg.dynmems, cfgLines)
  let cfgLines ←
    if 0 < adpReqLine then setLine cfgLines adpReqLine "adapt_required 0".toList else .ok cfgLines
  return ({ cfg with dynmems := dynmems }, cfgLines)

/-- `take_over_config`: the classes, the files, and the lines as `write_config_vect` leaves them. -/
def takeOverConfig (fs : FileSys) (cfgPath : Str) (cfg : CfgMem) (adp : Nat → U32 × Ptr)
    (cfgLine : Nat → Nat) (adpReqLine : Nat) (cfgLines : List Str) :
    Except AdaptError (CfgMem × FileSys × List Str) := do
  let (cfg, cfgLines) ← takeOverLines cfg adp cfgLine adpReqLine cfgLines
  match writeConfigVect fs cfgPath cfgLines with
  | (some fs, cfgLines) => return (cfg, fs, cfgLines)
  | (none, _) => throw .write

namespace ConfigState

/-- The type of a line, behind its macros. -/
def lineType (n : Nat) (s : ConfigState) (line : Str) : Option NameType :=
  if line = [] ∨ line.head? = some '#' then none
  else
    match parseValueName s.macros false true n line 0 with
    | some (.ok v) => some (v.nameType.getD .regular)
    | _ => none

/-- `cfg_line` of the class that a line adds: none for a growth rule without a class. -/
def addedLine (n lnr : Nat) (s : ConfigState) (line : Str) : List Nat :=
  match s.lineType n line with
  | some .dynmemStart => [lnr]
  | some .dynmemGrow => if s.inDynmem = none then [0] else []
  | _ => []

/-- `cfg_line` of the classes that the lines add. -/
def classLines (fl : FloatLib) (n : Nat) (cfgPath : Str) (lnr : Nat) (s : ConfigState) :
    List Str → List Nat
  | [] => []
  | line :: lines =>
    match readLine fl n cfgPath lnr s line with
    | some (.ok s') => s.addedLine n lnr line ++ classLines fl n cfgPath (lnr + 1) s' lines
    | _ => []

/-- `cfg_line` of the class `d`. -/
def cfgLine (fl : FloatLib) (n : Nat) (cfgPath : Str) (preloadLib : Option Str) (cfgLines : List Str)
    (d : Nat) : Nat :=
  ((init preloadLib (cfgLines.headD [])).classLines fl n cfgPath 1 cfgLines.tail)[d]?.getD 0

end ConfigState

/-- What the adaption starts with. -/
def AdaptState.ofConfig (s : ConfigState) (cfgLines : List Str) : AdaptState where
  adp := fun _ => (0, 0)
  procName := s.procName
  gameCall := s.gameCall
  gameBinpath := s.gameBinpath
  cfgLines := cfgLines

/-- `process_adaptation`, when the script prints `text`. -/
def processAdaptation (fl : FloatLib) (n : Nat) (fs : FileSys) (cfgPath : Str)
    (preloadLib : Option Str) (s : ConfigState) (cfgLines : List Str) (text : Str) :
    Except AdaptError (AdaptState × CfgMem × FileSys × List Str) := do
  let a ← AdaptState.parseAdaptResult s.opt.toCfgMem s.binpathLine (.ofConfig s cfgLines) text
  let (cfg, fs, cfgLines) ← takeOverConfig fs cfgPath s.opt.toCfgMem a.adp
    (ConfigState.cfgLine fl n cfgPath preloadLib cfgLines) s.adpReqLine a.cfgLines
  return (a, cfg, fs, cfgLines)

/-! ## The line of a class -/

section Line

variable {fl : FloatLib} {line name ds rest : Str} {start n : Nat} {c : Char} {s : ConfigState}
  {dm : DynMemEntry}

/-- A name as the parser gives it. -/
def IsName (name : Str) : Prop := ∀ c ∈ name, isNameChar c = true ∧ c ≠ ' '

instance (name : Str) : Decidable (IsName name) :=
  List.decidableBAll (fun c => isNameChar c = true ∧ c ≠ ' ') name

theorem scanName_blank (h : IsName name) (lidx : Nat) :
    scanName false lidx (name ++ ' ' :: rest) = .ok (lidx + name.length) := by
  induction name generalizing lidx with
  | nil => rfl
  | cons c name ih =>
    obtain ⟨hc, hblank⟩ := h c (by simp)
    rw [List.cons_append, scanName, if_neg (by simp [hblank]), if_pos hc,
      ih fun c hc => h c (List.mem_cons_of_mem _ hc), List.length_cons]
    congr 1
    omega

theorem firstName_blank (hdrop : line.drop start = name ++ ' ' :: rest) (h : IsName name) :
    firstName false line start = .ok (name, start + name.length + 1) := by
  have hlen : ¬ line.length < start := by
    intro hlt
    rw [List.drop_eq_nil_of_le (by omega)] at hdrop
    simp at hdrop
  unfold firstName
  rw [hdrop, scanName_blank h]
  simp [hlen]

theorem nameAt_blank (hdrop : line.drop start = name ++ ' ' :: rest) (h : IsName name) :
    nameAt line start = .ok (name, start + name.length + 1) := by
  rw [nameAt, firstName_blank hdrop h]
  rfl

/-- A path goes on to the end of the line. -/
theorem scanName_path {path : Str} (h : ∀ c ∈ path, isNameChar c = true) (lidx : Nat) :
    scanName true lidx path = .ok (lidx + path.length) := by
  induction path generalizing lidx with
  | nil => rfl
  | cons c path ih =>
    rw [scanName, if_neg (by simp), if_pos (h c (by simp)),
      ih fun c hc => h c (List.mem_cons_of_mem _ hc), List.length_cons]
    congr 1
    omega

/-- What is read as a name is one. -/
theorem scanName_isName {lidx behind : Nat} {text : Str} (h : scanName false lidx text = .ok behind) :
    IsName (text.take (behind - lidx)) ∧ lidx ≤ behind := by
  induction text generalizing lidx with
  | nil =>
    cases h
    exact ⟨by simp [IsName], le_refl _⟩
  | cons c text ih =>
    unfold scanName at h
    split at h
    · cases h
      exact ⟨by simp [IsName], le_refl _⟩
    · rename_i hblank
      split at h
      · rename_i hc
        obtain ⟨hname, hle⟩ := ih h
        refine ⟨?_, by omega⟩
        rw [show behind - lidx = behind - (lidx + 1) + 1 by omega, List.take_succ_cons]
        intro x hx
        rcases List.mem_cons.mp hx with rfl | hx
        · exact ⟨hc, by simpa using hblank⟩
        · exact hname x hx
      · cases h

theorem nameAt_isName {behind : Nat} (h : nameAt line start = .ok (name, behind)) : IsName name := by
  unfold nameAt firstName at h
  split at h
  · cases h
  · rename_i lidx hscan
    split at h
    · cases h
    · cases h
      exact (scanName_isName hscan).1

theorem scanHexAddr_blank (lidx : Nat) (us : Str) (h : ∀ c ∈ ds, isXDigit c = true)
    (hrest : rest ≠ []) :
    scanHexAddr lidx us (ds ++ ' ' :: rest) = .ok (us ++ ds, lidx + ds.length) := by
  induction ds generalizing lidx us with
  | nil =>
    cases rest with
    | nil => exact absurd rfl hrest
    | cons c rest => simp [scanHexAddr]
  | cons c ds ih =>
    rw [List.cons_append, scanHexAddr_digit (h c (by simp)) (by simp),
      ih _ _ fun c hc => h c (List.mem_cons_of_mem _ hc), List.length_cons, List.append_assoc]
    congr 2
    omega

theorem scanHexAddr_end (lidx : Nat) (us : Str) (h : ∀ c ∈ ds, isXDigit c = true) (hne : ds ≠ []) :
    scanHexAddr lidx us ds = .ok (us ++ ds, lidx + ds.length - 1) := by
  induction ds generalizing lidx us with
  | nil => exact absurd rfl hne
  | cons c ds ih =>
    by_cases hds : ds = []
    · subst hds
      rfl
    · rw [scanHexAddr_digit (h c (by simp)) hds,
        ih _ _ (fun c hc => h c (List.mem_cons_of_mem _ hc)) hds, List.length_cons,
        List.append_assoc]
      congr 2
      have := List.length_pos_of_ne_nil hds
      omega

/-- An address as it is printed is read again, with a blank behind it. -/
theorem parsePlainAddr_blank {a : Ptr} (hdrop : line.drop start = printHex a ++ ' ' :: rest)
    (hrest : rest ≠ []) :
    parsePlainAddr line start = .ok (a, start + (printHex a).length + 1) := by
  have hds := digits_toDigits (b := 16) (by decide) (by decide) a.toNat
  have hdrop' : line.drop (start + 2) = Nat.toDigits 16 a.toNat ++ ' ' :: rest := by
    rw [← List.drop_drop, hdrop]
    rfl
  rw [parsePlainAddr_hex (by rw [hdrop]; rfl), parseHexAddr, hdrop',
    scanHexAddr_blank _ _ (fun c hc => hds.digit hc) hrest]
  simp only [List.nil_append, Run.ok_bind, strtoul_digits hds (by decide),
    toULong_false a.isLt, BitVec.ofNat_toNat, BitVec.setWidth_eq]
  simp only [printHex, List.length_cons]
  congr 2
  omega

/-- An address at the end of the line. -/
theorem parsePlainAddr_end {a : Ptr} (hdrop : line.drop start = printHex a) :
    parsePlainAddr line start = .ok (a, line.length) := by
  have hds := digits_toDigits (b := 16) (by decide) (by decide) a.toNat
  have hdrop' : line.drop (start + 2) = Nat.toDigits 16 a.toNat := by
    rw [← List.drop_drop, hdrop]
    rfl
  have hlen := congrArg List.length hdrop'
  have hpos := List.length_pos_of_ne_nil hds.1
  rw [List.length_drop] at hlen
  rw [parsePlainAddr_hex (by rw [hdrop]; rfl), parseHexAddr, hdrop',
    scanHexAddr_end _ _ (fun c hc => hds.digit hc) hds.1]
  simp only [List.nil_append, Run.ok_bind, strtoul_digits hds (by decide),
    toULong_false a.isLt, BitVec.ofNat_toNat, BitVec.setWidth_eq]
  refine congrArg (fun x => Except.ok (a, x)) ?_
  omega

/-- So is a size. -/
theorem parseU32Value_dec {v : Nat} (hv : v < 2 ^ 32) (hdrop : line.drop start = printDec v ++ rest)
    (hrest : rest.head?.all (· = ' ')) :
    parseU32Value fl line start = .ok (BitVec.ofNat 32 v, start + (printDec v).length + 1) := by
  have hds := digits_toDigits (b := 10) (by decide) (by decide) v
  have hlit : (Literal.dec v).Text (printDec v) := ⟨_, hds, (if_neg (by omega)).symm⟩
  have hint : ValueUse.plain.type.Integer false 32 := ⟨rfl, rfl, rfl, by decide⟩
  unfold parseU32Value parseValue parseCompare
  simp only [Run.ok_bind, parseValueAt_dec hdrop hlit hrest]
  rw [parseNumber_int hint, if_neg Bool.noConfusion, printDec, strtoul_digits hds (by decide),
    toULong_false (by omega)]
  refine congrArg (fun x => Except.ok (x, _)) ?_
  rw [setWidth_store (by decide), BitVec.setWidth_ofNat_of_le (by decide)]

/-- The first name of a line that is a keyword. -/
theorem readLine_keyword {lnr : Nat} {cfgPath : Str} {type : NameType} (h : IsName name)
    (hk : keyword name = some type) (hline : line = name ++ ' ' :: rest) :
    ConfigState.readLine fl n cfgPath lnr s line =
      some (s.readNamed fl cfgPath lnr type name line (name.length + 1)) := by
  have hfirst := firstName_blank (show line.drop 0 = _ from hline) h
  have hround : nameRound s.macros false true line 0 =
      .inl (.ok ⟨name, line, 0 + name.length + 1, some type⟩) := by
    unfold nameRound
    rw [hfirst]
    dsimp only
    rw [if_neg Bool.noConfusion, hk]
  have hstart : ¬ (line = [] ∨ line.head? = some '#') := by
    rw [hline]
    rintro (h0 | h0)
    · simp at h0
    · cases name with
      | nil => simp at h0
      | cons c name =>
        obtain rfl : c = '#' := by simpa using h0
        exact absurd (h '#' (by simp)).1 (by decide)
  unfold ConfigState.readLine
  rw [if_neg hstart, parseValueName_inl hround, Nat.zero_add]
  rfl

/-- **The line of a class** gives the class again, with its size, its addresses and no library. -/
theorem readLine_class {lnr : Nat} {cfgPath : Str} (h : IsName dm.name)
    (hsize : dm.memSize.toNat < 2 ^ 32) (hd : s.inDynmem = none) (hp : s.inPtrmem = none) :
    ConfigState.readLine fl n cfgPath lnr s dm.line =
      some (.ok { s.pushClass (.new dm.name ⟨dm.memSize, dm.codeAddr, dm.codeAddr, dm.stackOffs,
        some ⟨s.numLibs, []⟩⟩) with numLibs := s.numLibs + 1 }) := by
  have hname : dm.line.drop 12 = dm.name ++ ' ' :: (printDec dm.memSize.toNat ++ ' ' ::
      (printHex dm.codeAddr ++ ' ' :: printHex dm.stackOffs)) := rfl
  have hdec : dm.line.drop (12 + dm.name.length + 1) = printDec dm.memSize.toNat ++ ' ' ::
      (printHex dm.codeAddr ++ ' ' :: printHex dm.stackOffs) := by
    rw [Nat.add_assoc, ← List.drop_drop, hname]
    simp
  have hcode : dm.line.drop (12 + dm.name.length + 1 + (printDec dm.memSize.toNat).length + 1) =
      printHex dm.codeAddr ++ ' ' :: printHex dm.stackOffs := by
    rw [Nat.add_assoc _ _ 1, ← List.drop_drop, hdec]
    simp
  have hstack : dm.line.drop (12 + dm.name.length + 1 + (printDec dm.memSize.toNat).length + 1 +
      (printHex dm.codeAddr).length + 1) = printHex dm.stackOffs := by
    rw [Nat.add_assoc _ _ 1, ← List.drop_drop, hcode]
    simp
  have hblank : '0' :: 'x' :: Nat.toDigits 16 dm.stackOffs.toNat ≠ [] := List.cons_ne_nil _ _
  have hsize' : (BitVec.ofNat 32 dm.memSize.toNat).setWidth 64 = dm.memSize := by
    refine BitVec.eq_of_toNat_eq ?_
    rw [BitVec.toNat_setWidth, BitVec.toNat_ofNat]
    omega
  have hes : parseEssentials fl s.numLibs dm.line (12 + dm.name.length + 1) =
      .ok ⟨dm.memSize, dm.codeAddr, dm.codeAddr, dm.stackOffs, some ⟨s.numLibs, []⟩⟩ := by
    have hlib : parsePicLib dm.line dm.line.length = [] := by
      simp [parsePicLib]
    unfold parseEssentials
    rw [parseU32Value_dec hsize hdec rfl]
    simp only [Run.ok_bind, parsePlainAddr_blank hcode hblank, parsePlainAddr_end hstack, hsize',
      hlib]
    rfl
  have hline : dm.line = "dynmemstart".toList ++ ' ' :: dm.line.drop 12 := rfl
  have hkey : keyword "dynmemstart".toList = some .dynmemStart := by decide +kernel
  rw [readLine_keyword (by decide +kernel) hkey hline]
  refine congrArg some ?_
  show s.readDynmemStart fl dm.line 12 = _
  unfold ConfigState.readDynmemStart ConfigState.outside
  rw [if_neg (by simp [hd, hp]), nameAt_blank hname h]
  simp only [Run.ok_bind, hes]
  rfl

/-- The line of a class is one line. -/
theorem line_noBreak (h : IsName dm.name) : '\n' ∉ dm.line := by
  have hname : '\n' ∉ dm.name := fun hm => absurd (h _ hm).1 (by decide)
  unfold DynMemEntry.line
  simp only [List.mem_append, List.mem_cons, not_or]
  exact ⟨⟨by decide +kernel, hname⟩, by decide, (clean_printDec _).2.1, by decide,
    (clean_printHex _).2.1, by decide, (clean_printHex _).2.1⟩

/-- The line that is written for `adapt_required`. -/
theorem readLine_adpReq {lnr : Nat} {cfgPath : Str} (hd : s.inDynmem = none)
    (hp : s.inPtrmem = none) :
    ConfigState.readLine fl n cfgPath lnr s "adapt_required 0".toList =
      some (.ok { s with adpReqLine := lnr }) := by
  have hvalue : parseU32Value fl "adapt_required 0".toList 15 = .ok (0, 17) :=
    parseU32Value_dec (v := 0) (by decide) (show _ = printDec 0 ++ [] from rfl) rfl
  have hline : "adapt_required 0".toList = "adapt_required".toList ++ ' ' :: ['0'] := rfl
  have hkey : keyword "adapt_required".toList = some .adpReq := by decide +kernel
  rw [readLine_keyword (by decide +kernel) hkey hline]
  refine congrArg some ?_
  show s.outside 15 (s.readGame fl cfgPath lnr .adpReq "adapt_required 0".toList 15) = _
  unfold ConfigState.outside ConfigState.readGame
  rw [if_neg (by simp [hd, hp]), hvalue]
  simp only [Run.ok_bind, bne_self_eq_false, Bool.or_false]
  rfl

/-- The line that is written for `game_binpath`. -/
theorem readLine_binpath {lnr : Nat} {cfgPath path : Str} (hpath : ∀ c ∈ path, isNameChar c = true)
    (hname : cppBasename path = s.procName) (hd : s.inDynmem = none) (hp : s.inPtrmem = none) :
    ConfigState.readLine fl n cfgPath lnr s ("game_binpath ".toList ++ path) =
      some (.ok { s with gameBinpath := path, binpathLine := lnr }) := by
  have hat : ConfigState.pathAt true ("game_binpath ".toList ++ path) 13 =
      .ok (path, 13 + path.length + 1) := by
    have hlen : ¬ ("game_binpath ".toList ++ path).length < 13 := by
      have hkey : "game_binpath ".toList.length = 13 := rfl
      rw [List.length_append]
      omega
    have hdrop : ("game_binpath ".toList ++ path).drop 13 = path := rfl
    unfold ConfigState.pathAt firstName
    rw [hdrop, scanName_path hpath]
    dsimp only
    rw [if_neg hlen, Nat.add_sub_cancel_left, List.take_length]
    rfl
  have hline : "game_binpath ".toList ++ path = "game_binpath".toList ++ ' ' :: path := rfl
  have hkey : keyword "game_binpath".toList = some .gameBinpath := by decide +kernel
  rw [readLine_keyword (by decide +kernel) hkey hline]
  refine congrArg some ?_
  show s.outside 13 (s.readGame fl cfgPath lnr .gameBinpath ("game_binpath ".toList ++ path) 13) = _
  unfold ConfigState.outside ConfigState.readGame
  rw [if_neg (by simp [hd, hp]), hat]
  simp only [Run.ok_bind, hname, ne_eq, not_true_eq_false, if_false]
  rfl

end Line

end UgTrain
