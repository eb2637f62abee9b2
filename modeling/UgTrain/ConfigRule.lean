import UgTrain.ConfigLines
import UgTrain.EntryLines

/-!
# What every accepted config has (`read_config`)

`ConfigState.readConfig_state`: what holds before the first line and what each kind of line keeps holds
of every config that is accepted. `StateRule` has one part for each kind of line. `LineRule` is for what
needs nothing of the text of a class (`ConfigState.readConfig_rule`).
-/

namespace UgTrain

open CLib

namespace ConfigState

/-- `ptrmemstart` opens a section. -/
def pushSection (s : ConfigState) (name : Str) (memSize : SizeT) : ConfigState :=
  { s with
    opt := { s.opt with ptrmems := s.opt.ptrmems ++ [⟨name, memSize, [], [], none, [], []⟩] }
    inPtrmem := some s.opt.ptrmems.length }

/-- The lines of a class that have been read. -/
def addConst (s : ConfigState) (d : Nat) (es : DynMemEssentials) : ConfigState :=
  s.modifyClass d fun dm => { dm with consts := dm.consts ++ [es] }

def setGrow (s : ConfigState) (d : Nat) (grow : GrowEntry) : ConfigState :=
  s.modifyClass d fun dm => { dm with vMsize := [], grow := some grow }

/-- The line is about no entry: libraries are added at most. -/
structure SameEntries (s s' : CfgReader) : Prop where
  cfg : s'.opt.toCfgMem = s.opt.toCfgMem
  libs : LibsGrow s.opt.libs s'.opt.libs
  valOnStack : s'.opt.valOnStack = s.opt.valOnStack
  cfgAct : s'.cfgAct = s.cfgAct
  inDynmem : ∀ d ∈ s'.inDynmem, d ∈ s.inDynmem
  inPtrmem : ∀ p ∈ s'.inPtrmem, p ∈ s.inPtrmem

/-- `P` holds before the first line, and each kind of line keeps it. -/
structure StateRule (fl : FloatLib) (P : ConfigState → Prop) : Prop where
  init : ∀ preloadLib procName, P (.init preloadLib procName)
  value : ∀ (s : ConfigState) (r : CfgReader) (name line : Str) (start : Nat), P s →
    CfgReader.readValue fl s.toCfgReader name line start = .ok r → P { s with toCfgReader := r }
  check : ∀ (s : ConfigState) (r : CfgReader) (objcheck : Bool) (line : Str) (start : Nat), P s →
    s.toCfgReader.readCheck fl objcheck line start = .ok r → P { s with toCfgReader := r }
  dynmemStart : ∀ (s : ConfigState) (name line : Str) (start : Nat) (es : DynMemEssentials), P s →
    s.inPtrmem = none → parseEssentials fl s.numLibs line start = .ok es →
      P { s.pushClass (.new name es) with numLibs := s.numLibs + 1 }
  dynmemConst : ∀ (s : ConfigState) (d : Nat) (line : Str) (start : Nat) (es : DynMemEssentials), P s →
    parseEssentials fl s.numLibs line start = .ok es → P (s.addConst d es)
  dynmemGrow : ∀ (s : ConfigState) (d : Nat) (line : Str) (start : Nat) (grow : GrowEntry), P s →
    parseGrowing fl s.numLibs line start = .ok grow → P (s.setGrow d grow)
  /-- A class that starts with its growth rule. -/
  growStart : ∀ (s : ConfigState) (name line : Str) (start : Nat) (grow : GrowEntry), P s →
    s.inPtrmem = none → parseGrowing fl s.numLibs line start = .ok grow →
      P ((s.pushClass (.new name ⟨0, 0, 0, 0, none⟩)).setGrow s.opt.dynmems.length grow)
  ptrmemStart : ∀ (s : ConfigState) (name : Str) (memSize : SizeT), P s → s.inDynmem = none →
    P (s.pushSection name memSize)
  other : ∀ s s' : ConfigState, P s → SameEntries s.toCfgReader s'.toCfgReader →
    s'.numLibs = s.numLibs → P s'
  caches : ∀ (s : ConfigState) (chunk : Nat), P s → P { s with opt := buildCaches chunk s.opt }

/-- `P` holds of the config before the first line, and each kind of change keeps it. -/
structure LineRule (fl : FloatLib) (P : CfgReader → Prop) : Prop where
  init : P .init
  value : ∀ (s s' : CfgReader) (name line : Str) (start : Nat), P s →
    CfgReader.readValue fl s name line start = .ok s' → P s'
  check : ∀ (s s' : CfgReader) (objcheck : Bool) (line : Str) (start : Nat), P s →
    s.readCheck fl objcheck line start = .ok s' → P s'
  pushClass : ∀ (s : ConfigState) (name : Str) (es : DynMemEssentials), P s.toCfgReader →
    s.inPtrmem = none → P (s.pushClass (.new name es)).toCfgReader
  addConst : ∀ (s : ConfigState) (d : Nat) (es : DynMemEssentials), P s.toCfgReader →
    P (s.addConst d es).toCfgReader
  setGrow : ∀ (s : ConfigState) (d : Nat) (grow : GrowEntry), P s.toCfgReader →
    P (s.setGrow d grow).toCfgReader
  pushSection : ∀ (s : ConfigState) (name : Str) (memSize : SizeT), P s.toCfgReader →
    s.inDynmem = none → P (s.pushSection name memSize).toCfgReader
  other : ∀ s s' : CfgReader, P s → SameEntries s s' → P s'
  caches : ∀ (s : CfgReader) (chunk : Nat), P s → P { s with opt := buildCaches chunk s.opt }

theorem SameEntries.refl (s : CfgReader) : SameEntries s s :=
  ⟨rfl, .refl _, rfl, rfl, fun _ hd => hd, fun _ hp => hp⟩

theorem LineRule.state {fl : FloatLib} {P : CfgReader → Prop} (hP : LineRule fl P) :
    StateRule fl fun s => P s.toCfgReader where
  init _ _ := hP.init
  value _ r name line start hs h := hP.value _ r name line start hs h
  check _ r objcheck line start hs h := hP.check _ r objcheck line start hs h
  dynmemStart s name _ _ es hs hp _ := hP.pushClass s name es hs hp
  dynmemConst s d _ _ es hs _ := hP.addConst s d es hs
  dynmemGrow s d _ _ grow hs _ := hP.setGrow s d grow hs
  growStart s name _ _ grow hs hp _ := hP.setGrow _ _ grow (hP.pushClass s name _ hs hp)
  ptrmemStart s name memSize hs hd := hP.pushSection s name memSize hs hd
  other _ _ hs h _ := hP.other _ _ hs h
  caches _ chunk hs := hP.caches _ chunk hs

section Lines

variable {fl : FloatLib} {P : ConfigState → Prop} {s s' : ConfigState} {cfgPath line name : Str}
  {start lnr n chunk : Nat} {type : NameType} {lines : List Str}

theorem withReader_eq {r : Except ReadError CfgReader} (h : s.withReader r = .ok s') :
    ∃ c, r = .ok c ∧ s' = { s with toCfgReader := c } := by
  unfold withReader at h
  cases r with
  | error e => cases h
  | ok c =>
    cases h
    exact ⟨c, rfl, rfl⟩

theorem outside_eq {r : Except ReadError ConfigState} (h : s.outside start r = .ok s') :
    r = .ok s' ∧ s.inDynmem = none ∧ s.inPtrmem = none := by
  unfold outside at h
  split at h
  · cases h
  · rename_i hout
    simpa [h] using hout

theorem readDynmemStart_eq (h : s.readDynmemStart fl line start = .ok s') :
    s.inPtrmem = none ∧ ∃ name es behind, parseEssentials fl s.numLibs line behind = .ok es ∧
      s' = { s.pushClass (.new name es) with numLibs := s.numLibs + 1 } := by
  obtain ⟨h, -, hp⟩ := outside_eq h
  obtain ⟨⟨name, behind⟩, -, h⟩ := Run.bind_eq_ok.mp h
  obtain ⟨es, hes, h⟩ := Run.bind_eq_ok.mp h
  cases h
  exact ⟨hp, name, es, behind, hes, rfl⟩

theorem readDynmemConst_eq (h : s.readDynmemConst fl line start = .ok s') :
    ∃ d es, parseEssentials fl s.numLibs line start = .ok es ∧ s' = s.addConst d es := by
  unfold readDynmemConst at h
  split at h
  · cases h
  · rename_i d hd
    obtain ⟨es, hes, h⟩ := Run.bind_eq_ok.mp h
    cases h
    exact ⟨d, es, hes, rfl⟩

theorem readDynmemGrow_eq (h : s.readDynmemGrow fl line start = .ok s') :
    s.inPtrmem = none ∧ ∃ behind grow, parseGrowing fl s.numLibs line behind = .ok grow ∧
      ((∃ d, s.inDynmem = some d ∧ s' = s.setGrow d grow) ∨ s.inDynmem = none ∧
        ∃ name, s' = (s.pushClass (.new name ⟨0, 0, 0, 0, none⟩)).setGrow s.opt.dynmems.length grow) := by
  unfold readDynmemGrow at h
  split at h
  · cases h
  rename_i hp
  obtain ⟨⟨s₁, behind⟩, hclass, h⟩ := Run.bind_eq_ok.mp h
  dsimp only at h
  split at h
  · cases h
  · rename_i d hd
    split at h
    · cases h
    · split at h
      · cases h
      · obtain ⟨grow, hgrow, h⟩ := Run.bind_eq_ok.mp h
        cases h
        unfold growClass at hclass
        split at hclass
        · cases hclass
          exact ⟨by simpa using hp, _, grow, hgrow, .inl ⟨d, hd, rfl⟩⟩
        · rename_i hnone
          obtain ⟨⟨name, behind'⟩, -, hclass⟩ := Run.bind_eq_ok.mp hclass
          cases hclass
          cases hd
          exact ⟨by simpa using hp, _, grow, hgrow, .inr ⟨hnone, name, rfl⟩⟩

theorem readPtrmemStart_eq (h : s.readPtrmemStart fl line start = .ok s') :
    s.inDynmem = none ∧ ∃ name memSize, s' = s.pushSection name memSize := by
  unfold readPtrmemStart at h
  split at h
  · cases h
  rename_i hd
  obtain ⟨⟨name, behind⟩, -, h⟩ := Run.bind_eq_ok.mp h
  obtain ⟨⟨memSize, behind'⟩, -, h⟩ := Run.bind_eq_ok.mp h
  cases h
  exact ⟨by simpa using hd, name, memSize.setWidth 64, rfl⟩

theorem readDump_eq (h : s.readDump fl line start = .ok s') :
    ∃ libs dumps, LibsGrow s.opt.libs libs ∧
      s' = { s with opt := { s.opt with libs := libs, dumps := dumps } } := by
  obtain ⟨⟨addr, behind⟩, -, h⟩ := Run.bind_eq_ok.mp h
  obtain ⟨⟨memSize, behind'⟩, -, h⟩ := Run.bind_eq_ok.mp h
  dsimp only at h
  split at h
  · cases h
    exact ⟨_, _, .refl _, rfl⟩
  · cases h
    exact ⟨_, _, (CfgReader.findAddLib_grow s.opt.libs _).1, rfl⟩

theorem readGame_reader (h : readGame fl cfgPath lnr s type line start = .ok s') :
    s'.toCfgReader = s.toCfgReader ∧ s'.numLibs = s.numLibs := by
  unfold readGame at h
  split at h
  · obtain ⟨⟨name, behind⟩, -, h⟩ := Run.bind_eq_ok.mp h
    cases h
    exact ⟨rfl, rfl⟩
  · obtain ⟨⟨name, behind⟩, -, h⟩ := Run.bind_eq_ok.mp h
    dsimp only at h
    split at h <;> cases h
    exact ⟨rfl, rfl⟩
  · obtain ⟨⟨value, behind⟩, -, h⟩ := Run.bind_eq_ok.mp h
    cases h
    exact ⟨rfl, rfl⟩
  · obtain ⟨⟨name, behind⟩, -, h⟩ := Run.bind_eq_ok.mp h
    dsimp only at h
    split at h <;> cases h
    exact ⟨rfl, rfl⟩
  · obtain ⟨⟨name, behind⟩, -, h⟩ := Run.bind_eq_ok.mp h
    cases h
    exact ⟨rfl, rfl⟩
  · obtain ⟨⟨name, behind⟩, -, h⟩ := Run.bind_eq_ok.mp h
    dsimp only at h
    split at h <;> cases h
    exact ⟨rfl, rfl⟩
  · split at h <;> cases h
    exact ⟨rfl, rfl⟩
  · cases h
    exact ⟨rfl, rfl⟩
  · cases h
    exact ⟨rfl, rfl⟩
  · cases h
    exact ⟨rfl, rfl⟩

/-- **Each line** keeps `P`. -/
theorem readNamed_state (hP : StateRule fl P) (hs : P s)
    (h : readNamed fl cfgPath lnr s type name line start = .ok s') : P s' := by
  have hgame : s.outside start (s.readGame fl cfgPath lnr type line start) = .ok s' → P s' := by
    intro h
    obtain ⟨hreader, hnum⟩ := readGame_reader (outside_eq h).1
    exact hP.other s s' hs (hreader ▸ .refl _) hnum
  unfold readNamed at h
  split at h
  · obtain ⟨c, hc, rfl⟩ := withReader_eq h
    exact hP.check s c true line start hs hc
  · obtain ⟨c, hc, rfl⟩ := withReader_eq h
    exact hP.check s c false line start hs hc
  · obtain ⟨hp, name, es, behind, hes, rfl⟩ := readDynmemStart_eq h
    exact hP.dynmemStart s name line behind es hs hp hes
  · obtain ⟨d, es, hes, rfl⟩ := readDynmemConst_eq h
    exact hP.dynmemConst s d line start es hs hes
  · rcases readDynmemGrow_eq h with ⟨hp, behind, grow, hgrow, ⟨d, -, rfl⟩ | ⟨-, name, rfl⟩⟩
    · exact hP.dynmemGrow s d line behind grow hs hgrow
    · exact hP.growStart s name line behind grow hs hp hgrow
  · split at h <;> cases h
    exact hP.other s _ hs ⟨rfl, .refl _, rfl, rfl, fun _ hd => (by cases hd), fun _ hp => hp⟩ rfl
  · obtain ⟨hd, name, memSize, rfl⟩ := readPtrmemStart_eq h
    exact hP.ptrmemStart s name memSize hs hd
  · split at h <;> cases h
    exact hP.other s _ hs ⟨rfl, .refl _, rfl, rfl, fun _ hd => hd, fun _ hp => (by cases hp)⟩ rfl
  · obtain ⟨macros, -, h⟩ := Run.bind_eq_ok.mp (outside_eq h).1
    cases h
    exact hP.other s _ hs (.refl _) rfl
  · obtain ⟨libs, dumps, hgrow, rfl⟩ := readDump_eq (outside_eq h).1
    exact hP.other s _ hs ⟨rfl, hgrow, rfl, rfl, fun _ hd => hd, fun _ hp => hp⟩ rfl
  · obtain ⟨c, hc, rfl⟩ := withReader_eq h
    exact hP.value s c name line start hs hc
  · exact hgame h

theorem readLines_state (hP : StateRule fl P) (hs : P s)
    (h : readLines fl n cfgPath lnr s lines = some (.ok s')) : P s' := by
  induction lines generalizing lnr s with
  | nil =>
    cases h
    exact hs
  | cons line lines ih =>
    rw [readLines] at h
    split at h
    · cases h
    · cases h
    · rename_i s₁ hline
      refine ih ?_ h
      unfold readLine at hline
      split at hline
      · cases hline
        exact hs
      · obtain ⟨r, -, hr⟩ := Option.map_eq_some_iff.mp hline
        obtain ⟨v, -, hr⟩ := Run.bind_eq_ok.mp hr
        exact readNamed_state hP hs hr

/-- The lines are read, then the caches are built. -/
theorem readConfig_finish {preloadLib : Option Str}
    (h : readConfig fl chunk n cfgPath preloadLib lines = some (.ok s)) :
    ∃ procName cfgLines s₁,
      readLines fl n cfgPath 1 (init preloadLib procName) cfgLines = some (.ok s₁) ∧
        s = { s₁ with macros := [], opt := buildCaches chunk s₁.opt } := by
  unfold readConfig at h
  split at h
  · cases h
  · split at h
    · cases h
    · rename_i procName _
      obtain ⟨r, hlines, h⟩ := Option.map_eq_some_iff.mp h
      obtain ⟨s₁, hr, hfinish⟩ := Run.bind_eq_ok.mp h
      subst hr
      unfold finish at hfinish
      split at hfinish <;> cases hfinish
      exact ⟨procName, _, s₁, hlines, rfl⟩

/-- **An accepted config** has what each line keeps. -/
theorem readConfig_state {preloadLib : Option Str} (hP : StateRule fl P)
    (h : readConfig fl chunk n cfgPath preloadLib lines = some (.ok s)) : P s := by
  obtain ⟨procName, cfgLines, s₁, hlines, rfl⟩ := readConfig_finish h
  have hs₁ : P s₁ := readLines_state hP (hP.init preloadLib procName) hlines
  exact hP.other { s₁ with opt := buildCaches chunk s₁.opt } _ (hP.caches s₁ chunk hs₁) (.refl _) rfl

theorem readConfig_rule {preloadLib : Option Str} {P : CfgReader → Prop} (hP : LineRule fl P)
    (h : readConfig fl chunk n cfgPath preloadLib lines = some (.ok s)) : P s.toCfgReader :=
  readConfig_state hP.state h

end Lines

/-- A config that is read. -/
theorem exists_read (lines : List Str) (f : ConfigState → Bool)
    (h : (readConfig CfgReader.noFloats 8 0 "game.conf".toList none lines).map (·.map f) =
      some (.ok true)) :
    ∃ c, readConfig CfgReader.noFloats 8 0 "game.conf".toList none lines = some (.ok c) ∧
      f c = true := by
  obtain ⟨r, hread, hr⟩ := Option.map_eq_some_iff.mp h
  obtain ⟨c, rfl, hf⟩ := Run.exists_ok_of_map hr
  exact ⟨c, hread, hf⟩

end ConfigState

end UgTrain
