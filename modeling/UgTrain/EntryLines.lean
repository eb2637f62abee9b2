import UgTrain.KeyBindings

/-!
# What the lines of values and checks do to the config

* **Value** (`readValue_cases`): its entry goes to the end of the list, and may be activated.
* **Check** (`readCheck_cases`): its checks go to the last entry.
* **Region** (`setRegion_region`): an item on the stack is in no library, and a library is in the list.
  `parseDataType_region`: the data type changes nothing about this.
-/

namespace UgTrain

open CLib

/-- Libraries are added that are not loaded. -/
structure LibsGrow (libs libs' : List LibEntry) : Prop where
  length : libs.length ≤ libs'.length
  loaded : ∀ lit ∈ libs', lit ∈ libs ∨ lit.isLoaded = false

theorem LibsGrow.refl (libs : List LibEntry) : LibsGrow libs libs := ⟨le_rfl, fun _ => .inl⟩

namespace CfgReader

/-- Where an item of this type is. -/
structure InRegion (opt : Options) (type : VType) : Prop where
  stack : type.onStack = true → type.lib = none ∧ opt.valOnStack = true
  lib : ∀ l ∈ type.lib, l < opt.libs.length

section Regions

variable {s s' : CfgReader} {line : Str} {start behind : Nat} {type type' : VType} {a : LineAddr}
  {opt opt' : Options}

theorem InRegion.mono (h : InRegion opt type) (hlibs : LibsGrow opt.libs opt'.libs)
    (hstack : opt.valOnStack = true → opt'.valOnStack = true) : InRegion opt' type :=
  ⟨fun hs => ⟨(h.stack hs).1, hstack (h.stack hs).2⟩, fun l hl => (h.lib l hl).trans_le hlibs.length⟩

theorem InRegion.of_region (h : InRegion opt type) (hs : type'.onStack = type.onStack)
    (hl : type'.lib = type.lib) : InRegion opt type' :=
  ⟨fun ho => hl ▸ h.stack (hs ▸ ho), fun l hm => h.lib l (hl ▸ hm)⟩

theorem findAddLib_grow (libs : List LibEntry) (name : Str) :
    LibsGrow libs (findAddLib libs name).1 ∧ (findAddLib libs name).2 < (findAddLib libs name).1.length := by
  unfold findAddLib
  split
  · rename_i l hl
    exact ⟨.refl libs, (List.findIdx?_eq_some_iff_getElem.mp hl).1⟩
  · refine ⟨⟨by simp, fun lit hm => ?_⟩, by simp⟩
    rcases List.mem_append.mp hm with hm | hm
    · exact .inl hm
    · exact .inr (List.mem_singleton.mp hm ▸ rfl)

/-- **The region of an address**, and what it adds to the config. -/
theorem setRegion_region (h : s.setRegion a = .ok (s', type)) : InRegion s'.opt type ∧
    LibsGrow s.opt.libs s'.opt.libs ∧ (s.opt.valOnStack = true → s'.opt.valOnStack = true) := by
  unfold setRegion at h
  split at h
  · split at h
    · cases h
    · cases h
      exact ⟨⟨fun _ => ⟨rfl, rfl⟩, fun _ hl => by cases hl⟩, .refl _, fun _ => rfl⟩
  · split at h
    · cases h
      exact ⟨⟨fun hs => (by cases hs), fun _ hl => (by cases hl)⟩, .refl _, id⟩
    · rename_i name _
      split at h
      · cases h
      · cases h
        obtain ⟨hgrow, hlt⟩ := findAddLib_grow s.opt.libs name
        exact ⟨⟨fun hs => (by cases hs), fun l hl => (by cases hl; exact hlt)⟩, hgrow, id⟩

theorem parseWidth_region (h : parseWidth type line start = .ok (type', behind)) :
    type'.onStack = type.onStack ∧ type'.lib = type.lib := by
  obtain ⟨⟨ds, lidx⟩, -, h⟩ := Run.bind_eq_ok.mp h
  split at h
  · cases h
    exact ⟨rfl, rfl⟩
  · dsimp only at h
    split at h <;> cases h
    exact ⟨rfl, rfl⟩

theorem parseDataType_region (h : parseDataType line start type = .ok (type', behind)) :
    type'.onStack = type.onStack ∧ type'.lib = type.lib := by
  unfold parseDataType at h
  split at h
  · cases h
  · split at h
    · have := parseWidth_region h
      exact this
    · have := parseWidth_region h
      exact this
    · have := parseWidth_region h
      exact this
    · cases h
      exact ⟨rfl, rfl⟩
    · split at h
      · cases h
      · split at h
        · cases h
          exact ⟨rfl, rfl⟩
        · split at h <;> cases h
          exact ⟨rfl, rfl⟩
    · cases h

/-- A pointer adds to its section, and to no list of libraries. -/
theorem setTarget_region {ptrtgt : Option Nat}
    (h : s.setTarget type line start = .ok (s', type', ptrtgt, behind)) :
    (type'.onStack = type.onStack ∧ type'.lib = type.lib) ∧
      s'.opt.libs = s.opt.libs ∧ s'.opt.valOnStack = s.opt.valOnStack := by
  unfold setTarget at h
  split at h
  · cases h
    exact ⟨⟨rfl, rfl⟩, rfl, rfl⟩
  · split at h
    · cases h
      exact ⟨⟨rfl, rfl⟩, rfl, rfl⟩
    · obtain ⟨⟨name, behind'⟩, -, h⟩ := Run.bind_eq_ok.mp h
      split at h
      split at h
      · cases h
      · cases h
        exact ⟨⟨rfl, rfl⟩, rfl, rfl⟩

end Regions

/-! ## Lines -/

section Lines

variable {fl : FloatLib} {s s' : CfgReader} {e start behind : Nat} {en : CfgEntry} {line name : Str}

/-- A new entry is of the class or the section that is open, in its region, and has no checks. -/
theorem parseEntry_cases (h : parseEntry fl s name line start = .ok (s', en, behind)) :
    en.dynmem = s.inDynmem ∧ en.ptrmem = s.inPtrmem ∧ en.checks = none ∧ InRegion s'.opt en.type ∧
      LibsGrow s.opt.libs s'.opt.libs ∧ (s.opt.valOnStack = true → s'.opt.valOnStack = true) := by
  obtain ⟨hlists, -⟩ := parseEntry_sameLists h
  rw [← hlists.inDynmem, ← hlists.inPtrmem]
  obtain ⟨a, -, h⟩ := Run.bind_eq_ok.mp h
  obtain ⟨⟨s₁, type⟩, hregion, h⟩ := Run.bind_eq_ok.mp h
  obtain ⟨⟨type₂, start₂⟩, htype, h⟩ := Run.bind_eq_ok.mp h
  obtain ⟨⟨s₂, type₃, ptrtgt, start₃⟩, htarget, h⟩ := Run.bind_eq_ok.mp h
  obtain ⟨v, -, h⟩ := Run.bind_eq_ok.mp h
  obtain ⟨hin, hgrow, hstack⟩ := setRegion_region hregion
  obtain ⟨hs₂, hl₂⟩ := parseDataType_region htype
  obtain ⟨⟨hs₃, hl₃⟩, hlibs, hval⟩ := setTarget_region htarget
  split at h
  split at h
  · cases h
  · cases h
    refine ⟨rfl, rfl, rfl, ?_, hlibs ▸ hgrow, fun hv => hval ▸ hstack hv⟩
    refine (hin.of_region (hs₃.trans hs₂) (hl₃.trans hl₂)).mono ?_ fun hv => hval ▸ hv
    rw [hlibs]
    exact .refl _

theorem setWatch_pushEntry : (s.pushEntry en).setWatch s.opt.entries.length =
    s.pushEntry { en with dynval := .watch } := by
  have hlast : (s.pushEntry en).opt.entries.modify s.opt.entries.length
      (fun en => { en with dynval := .watch }) =
      (s.pushEntry { en with dynval := .watch }).opt.entries := Pointwise.modify_concat ..
  unfold setWatch
  rw [hlast]
  rfl

/-- **What the line of a value does**: the entry goes to the end of the list. The line may say that it is
only watched, and activate it. -/
theorem readValue_cases (h : readValue fl s name line start = .ok s') :
    ∃ s₁ en behind dynval cfgpMap, parseEntry fl s name line start = .ok (s₁, en, behind) ∧
      (dynval = en.dynval ∨ dynval = .watch) ∧
      (s' = { s₁.pushEntry { en with dynval := dynval } with cfgpMap := cfgpMap } ∨
        s' = ({ s₁.pushEntry { en with dynval := dynval } with cfgpMap := cfgpMap } :
          CfgReader).activate s₁.opt.entries.length) := by
  obtain ⟨⟨s₁, en, behind⟩, hentry, h⟩ := Run.bind_eq_ok.mp h
  dsimp only at h
  split at h
  · cases h
    exact ⟨s₁, en, behind, en.dynval, _, hentry, .inl rfl, .inr rfl⟩
  · obtain ⟨⟨keys, start₂⟩, -, h⟩ := Run.bind_eq_ok.mp h
    dsimp only at h
    split at h
    · cases h
    · obtain ⟨f, hf⟩ : ∃ f, keys.foldl (bindKey s₁.opt.entries.length) (s₁.pushEntry en) =
        { s₁.pushEntry en with cfgpMap := f } := bindKeys_else
      rw [hf] at h
      unfold setState at h
      split at h
      · cases h
      · cases h
        exact ⟨s₁, en, behind, en.dynval, f, hentry, .inl rfl, .inr rfl⟩
      · cases h
        refine ⟨s₁, en, behind, .watch, f, hentry, .inr rfl, .inr ?_⟩
        rw [← setWatch_pushEntry]
        rfl
      · cases h
        exact ⟨s₁, en, behind, en.dynval, f, hentry, .inl rfl, .inl rfl⟩

theorem heapCheck_type {chk chk' : CheckEntry} (h : chk' ∈ heapCheck chk) : chk'.type = chk.type := by
  unfold heapCheck at h
  split at h
  · simp only [List.mem_cons, List.not_mem_nil, or_false] at h
    rcases h with rfl | rfl <;> rfl
  · rw [List.mem_singleton.mp h]

/-- **What the line of a check does**: the checks go to the last entry. -/
theorem readCheck_cases {objcheck : Bool} (h : s.readCheck fl objcheck line start = .ok s') :
    ∃ s₁ en a type chks heapChecks chkAddr, s.opt.entries.getLast? = some en ∧
      s.setRegion a = .ok (s₁, type) ∧
      (∀ chk ∈ chks, chk.type.onStack = type.onStack ∧ chk.type.lib = type.lib) ∧
      s' = { s₁ with
        opt := { s₁.opt with
          entries := s₁.opt.entries.dropLast ++
            [{ en with checks := some (en.checks.getD [] ++ chks) }] }
        heapChecks := heapChecks
        chkAddr := chkAddr } := by
  unfold readCheck at h
  split at h
  · cases h
  split at h
  · cases h
  rename_i en hlast
  obtain ⟨⟨objNum, a⟩, -, h⟩ := Run.bind_eq_ok.mp h
  obtain ⟨⟨s₁, type⟩, hregion, h⟩ := Run.bind_eq_ok.mp h
  obtain ⟨⟨type₂, start₂⟩, htype, h⟩ := Run.bind_eq_ok.mp h
  obtain ⟨vals, -, h⟩ := Run.bind_eq_ok.mp h
  obtain ⟨hstack, hlib⟩ := parseDataType_region htype
  dsimp only at h
  split at h
  · cases h
  · cases h
    refine ⟨s₁, en, a, type, _, _, _, hlast, hregion, fun chk hchk => ?_, rfl⟩
    rw [heapCheck_type hchk, ← hstack, ← hlib]
    dsimp only
    split <;> exact ⟨rfl, rfl⟩

end Lines

end CfgReader

end UgTrain
