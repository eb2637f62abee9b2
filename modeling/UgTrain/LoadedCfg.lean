import UgTrain.ActLists

/-!
# The config as it is loaded

An accepted config has no object yet, its vectors fit to that, and its pointer sections have the
entries that are in them and the class of a pointer that is for them: `CfgReader.Clean` holds after
every line (`clean_rule`). So the main loop starts with what its runs rely on (`starts_fresh`,
`starts_owned`).
-/

namespace UgTrain

open CLib

/-- A pointer section that belongs to a class has a pointer there. -/
def CfgMem.SectionsOwned (cfg : CfgMem) : Prop :=
  ∀ p d, (cfg.ptrmems[p]?).bind (·.dynmem) = some d →
    ∃ e, cfg.classOf e = some d ∧ cfg.tgt e = some p

/-- Where entries and sections belong is the same. -/
structure CfgMem.SameOwners (cfg cfg' : CfgMem) : Prop where
  entries : cfg'.entries.map (fun en => (en.dynmem, en.ptrtgt)) =
    cfg.entries.map fun en => (en.dynmem, en.ptrtgt)
  sections : cfg'.ptrmems.map (·.dynmem) = cfg.ptrmems.map (·.dynmem)

/-- The links and the vectors are the same. -/
structure CfgMem.SameParts (cfg cfg' : CfgMem) : Prop where
  entries : cfg'.entries.map (fun en => (en.dynmem, en.ptrmem, en.ptrtgt, en.vals.vecs)) =
    cfg.entries.map fun en => (en.dynmem, en.ptrmem, en.ptrtgt, en.vals.vecs)
  ptrmems : cfg'.ptrmems.map (fun pm => (pm.cfg, pm.dims, pm.dynmem)) =
    cfg.ptrmems.map fun pm => (pm.cfg, pm.dims, pm.dynmem)
  dynmems : cfg'.dynmems.map (fun dm => (dm.vMaddr, dm.vMsize, dm.numFreed)) =
    cfg.dynmems.map fun dm => (dm.vMaddr, dm.vMsize, dm.numFreed)

theorem CfgMem.SameOwners.owned {cfg cfg' : CfgMem} (h : cfg.SameOwners cfg')
    (ho : cfg.SectionsOwned) : cfg'.SectionsOwned := by
  intro p d hp
  have hsec := congrArg (·[p]?) h.sections
  simp only [List.getElem?_map] at hsec
  have hp' : (cfg.ptrmems[p]?).bind (·.dynmem) = some d := by
    have := congrArg (·.bind id) hsec
    simp only [Option.bind_map] at this
    exact this.symm.trans hp
  obtain ⟨e, hclass, htgt⟩ := ho p d hp'
  have hen := congrArg (·[e]?) h.entries
  simp only [List.getElem?_map] at hen
  refine ⟨e, ?_, ?_⟩
  · have := congrArg (·.bind (·.1)) hen
    simp only [Option.bind_map] at this
    exact this.trans hclass
  · have := congrArg (·.bind (·.2)) hen
    simp only [Option.bind_map] at this
    exact this.trans htgt

theorem CfgMem.SameParts.sameOwners {cfg cfg' : CfgMem} (h : cfg.SameParts cfg') :
    cfg.SameOwners cfg' := by
  constructor
  · have := congrArg (List.map fun x => (x.1, x.2.2.1)) h.entries
    simp only [List.map_map] at this
    exact this
  · have := congrArg (List.map fun x => x.2.2) h.ptrmems
    simp only [List.map_map] at this
    exact this

namespace CfgReader

structure Clean (s : CfgReader) : Prop where
  sections : ∀ (p : Nat) (pm : PtrMemEntry), s.opt.ptrmems[p]? = some pm →
    pm.cfg = (List.range s.opt.entries.length).filter fun e => s.opt.sectionOf e = some p
  objs : ∀ dm ∈ s.opt.dynmems, dm.vMaddr = [] ∧ dm.vMsize = [] ∧ dm.numFreed = 0
  values : ∀ en ∈ s.opt.entries, en.vals.vecs = ([], [], [])
  states : ∀ (p : Nat) (pm : PtrMemEntry), s.opt.ptrmems[p]? = some pm →
    pm.dims = (s.opt.statics p, s.opt.statics p)
  targets : ∀ en ∈ s.opt.entries, ∀ p ∈ en.ptrtgt, p < s.opt.ptrmems.length
  owned : s.opt.SectionsOwned

section Clean

variable {fl : FloatLib} {s s' : CfgReader} {e start behind : Nat} {en : CfgEntry}
  {line name : Str}

theorem Clean.of_sameParts (h : s.Clean) (hs : s.opt.SameParts s'.opt.toCfgMem) : s'.Clean := by
  have hplen : s'.opt.ptrmems.length = s.opt.ptrmems.length := by
    simpa using congrArg List.length hs.ptrmems
  have helen : s'.opt.entries.length = s.opt.entries.length := by
    simpa using congrArg List.length hs.entries
  have hsec : ∀ e, s'.opt.sectionOf e = s.opt.sectionOf e := by
    intro e
    have hget := congrArg (·[e]?.bind fun x => x.2.1) hs.entries
    simpa only [CfgMem.sectionOf, List.getElem?_map, Option.bind_map, Function.comp_def] using hget
  have hstatics : ∀ p, s'.opt.statics p = s.opt.statics p := by
    intro p
    have hcount := congrArg (List.countP fun x => x.2.2.1 = some p ∧ x.1 = none) hs.entries
    simpa only [CfgMem.statics, List.countP_map, Function.comp_def] using hcount
  have hentry : ∀ en ∈ s'.opt.entries, ∃ en' ∈ s.opt.entries, en'.ptrtgt = en.ptrtgt ∧
      en'.vals.vecs = en.vals.vecs := by
    intro en he
    obtain ⟨e, he⟩ := List.getElem?_of_mem he
    obtain ⟨en', he', heq⟩ := Pointwise.getElem?_of_map_eq hs.entries.symm he
    simp only [Prod.mk.injEq] at heq
    exact ⟨en', List.mem_of_getElem? he', heq.2.2.1, heq.2.2.2⟩
  refine ⟨fun p pm hp => ?_, fun dm hd => ?_, fun en he => ?_, fun p pm hp => ?_,
    fun en he p ht => ?_, hs.sameOwners.owned h.owned⟩
  · obtain ⟨pm', hp', heq⟩ := Pointwise.getElem?_of_map_eq hs.ptrmems.symm hp
    rw [← (Prod.mk.inj heq).1, h.sections p pm' hp', helen]
    simp only [hsec]
  · obtain ⟨d, hd⟩ := List.getElem?_of_mem hd
    obtain ⟨dm', hd', heq⟩ := Pointwise.getElem?_of_map_eq hs.dynmems.symm hd
    obtain ⟨haddr, hsize, hfreed⟩ := h.objs dm' (List.mem_of_getElem? hd')
    simp only [Prod.mk.injEq] at heq
    exact ⟨heq.1 ▸ haddr, heq.2.1 ▸ hsize, heq.2.2 ▸ hfreed⟩
  · obtain ⟨en', he', -, hv⟩ := hentry en he
    exact hv ▸ h.values en' he'
  · obtain ⟨pm', hp', heq⟩ := Pointwise.getElem?_of_map_eq hs.ptrmems.symm hp
    rw [← (Prod.mk.inj (Prod.mk.inj heq).2).1, h.states p pm' hp', hstatics]
  · obtain ⟨en', he', htgt, -⟩ := hentry en he
    exact hplen ▸ h.targets en' he' p (htgt ▸ ht)

theorem init_clean : init.Clean := by
  refine ⟨?_, ?_, ?_, ?_, ?_, ?_⟩
  all_goals simp [init, CfgMem.SectionsOwned]

/-! ### Values -/

/-- What the pointer of a new entry adds to a section: an element, unless the entry is in a class. -/
def newElems (inDynmem ptrtgt : Option Nat) (p : Nat) : Nat :=
  if ptrtgt = some p ∧ inDynmem = none then 1 else 0

/-- The class of a section behind a new entry: that of the last pointer in a class. -/
def newOwner (inDynmem ptrtgt : Option Nat) (p : Nat) (owner : Option Nat) : Option Nat :=
  if ptrtgt = some p then inDynmem.or owner else owner

theorem setTarget_states {type type' : VType} {ptrtgt : Option Nat}
    (h : s.setTarget type line start = .ok (s', type', ptrtgt, behind)) (p : Nat)
    (pm' : PtrMemEntry) (hp : s'.opt.ptrmems[p]? = some pm') :
    ∃ pm, s.opt.ptrmems[p]? = some pm ∧ pm'.cfg = pm.cfg ∧
      pm'.dims = (pm.dims.1 + newElems s.inDynmem ptrtgt p,
        pm.dims.2 + newElems s.inDynmem ptrtgt p) ∧
      pm'.dynmem = newOwner s.inDynmem ptrtgt p pm.dynmem := by
  unfold setTarget at h
  split at h
  · cases h
    exact ⟨pm', hp, rfl, by simp [newElems], by simp [newOwner]⟩
  · split at h
    · cases h
      exact ⟨pm', hp, rfl, by simp [newElems], by simp [newOwner]⟩
    · obtain ⟨⟨name, behind'⟩, -, h⟩ := Run.bind_eq_ok.mp h
      split at h
      split at h
      · cases h
      · rename_i p' hfind
        cases h
        obtain ⟨pm, hpm, rfl⟩ := Option.map_eq_some_iff.mp (List.getElem?_modify .. ▸ hp)
        refine ⟨pm, hpm, ?_⟩
        by_cases hpp : p' = p
        · subst hpp
          cases hd : s.inDynmem <;> simp [newElems, newOwner, PtrMemEntry.dims]
        · simp [newElems, newOwner, hpp]

/-- A pointer is for a section that has an entry. -/
theorem setTarget_target {type type' : VType} {ptrtgt : Option Nat}
    (h : s.setTarget type line start = .ok (s', type', ptrtgt, behind)) (p : Nat)
    (hp : p ∈ ptrtgt) : ∃ en ∈ s.opt.entries, en.ptrmem = some p := by
  unfold setTarget at h
  split at h
  · cases h
    cases hp
  · split at h
    · cases h
      cases hp
    · obtain ⟨⟨name, behind'⟩, -, h⟩ := Run.bind_eq_ok.mp h
      split at h
      split at h
      · cases h
      · rename_i p' hfind
        cases h
        obtain rfl : p' = p := Option.some.inj hp
        obtain ⟨en, hen, hsec⟩ := List.mem_filterMap.mp (List.mem_of_find?_eq_some hfind)
        exact ⟨en, hen, hsec⟩

theorem setRegion_cfg {a : LineAddr} {type : VType} (h : s.setRegion a = .ok (s', type)) :
    s'.opt.toCfgMem = s.opt.toCfgMem ∧ s'.inDynmem = s.inDynmem := by
  unfold setRegion at h
  split at h
  · split at h
    · cases h
    · cases h
      exact ⟨rfl, rfl⟩
  · split at h
    · cases h
      exact ⟨rfl, rfl⟩
    · split at h
      · cases h
      · cases h
        exact ⟨rfl, rfl⟩

/-- A new entry has no objects. Its pointer is for a section that is there. -/
theorem parseEntry_parts (h : parseEntry fl s name line start = .ok (s', en, behind)) :
    en.vals.vecs = ([], [], []) ∧
    (∀ p ∈ en.ptrtgt, ∃ en' ∈ s.opt.entries, en'.ptrmem = some p) ∧
    ∀ (p : Nat) (pm' : PtrMemEntry), s'.opt.ptrmems[p]? = some pm' →
      ∃ pm, s.opt.ptrmems[p]? = some pm ∧ pm'.cfg = pm.cfg ∧
        pm'.dims = (pm.dims.1 + newElems en.dynmem en.ptrtgt p,
          pm.dims.2 + newElems en.dynmem en.ptrtgt p) ∧
        pm'.dynmem = newOwner en.dynmem en.ptrtgt p pm.dynmem := by
  obtain ⟨a, -, h⟩ := Run.bind_eq_ok.mp h
  obtain ⟨⟨s₁, type⟩, hregion, h⟩ := Run.bind_eq_ok.mp h
  obtain ⟨⟨type₂, start₂⟩, -, h⟩ := Run.bind_eq_ok.mp h
  obtain ⟨⟨s₂, type₃, ptrtgt, start₃⟩, htarget, h⟩ := Run.bind_eq_ok.mp h
  obtain ⟨v, -, h⟩ := Run.bind_eq_ok.mp h
  obtain ⟨hcfg, -⟩ := setRegion_cfg hregion
  obtain ⟨hsame, -⟩ := setTarget_sameLists htarget
  have htgts := setTarget_target htarget
  have hstates := setTarget_states htarget
  rw [hcfg] at htgts hstates
  rw [← hsame.inDynmem] at hstates
  split at h
  split at h
  · cases h
  · cases h
    exact ⟨rfl, htgts, hstates⟩

theorem pushEntry_clean (hl : s.Listed) (hs : s.Clean)
    (h : parseEntry fl s name line start = .ok (s', en, behind)) : (s'.pushEntry en).Clean := by
  obtain ⟨hsame, hentries⟩ := parseEntry_sameLists h
  have hsec : en.ptrmem = s'.inPtrmem := (parseEntry_cases h).2.1.trans hsame.inPtrmem.symm
  obtain ⟨hvecs, htgts, hstates⟩ := parseEntry_parts h
  have hen : (s'.pushEntry en).opt.entries = s.opt.entries ++ [en] := hentries ▸ rfl
  have hplen : (s'.pushEntry en).opt.ptrmems.length = s.opt.ptrmems.length := by
    simpa using congrArg List.length (hsame.trans pushEntry_sameLists).ptrmems
  have hlast : (s'.pushEntry en).opt.sectionOf s.opt.entries.length = s'.inPtrmem := by
    simp [CfgMem.sectionOf, hen, hsec]
  -- the new entry behind those of a section, if it is the open one
  have hpm : ∀ (p : Nat) (pm' : PtrMemEntry), (s'.pushEntry en).opt.ptrmems[p]? = some pm' →
      ∃ pm, s'.opt.ptrmems[p]? = some pm ∧ pm'.dims = pm.dims ∧ pm'.dynmem = pm.dynmem ∧
        pm'.cfg = pm.cfg ++ if s'.inPtrmem = some p then [s.opt.entries.length] else [] := by
    intro p pm' hp
    unfold pushEntry at hp
    cases hip : s'.inPtrmem with
    | none =>
      rw [hip] at hp
      exact ⟨pm', hp, rfl, rfl, by simp⟩
    | some q =>
      rw [hip] at hp
      obtain ⟨pm, hpm, rfl⟩ := Option.map_eq_some_iff.mp (List.getElem?_modify .. ▸ hp)
      refine ⟨pm, hpm, ?_⟩
      by_cases hqp : q = p
      · subst hqp
        simp [PtrMemEntry.dims, hentries]
      · simp [hqp]
  refine ⟨fun p pm' hp => ?_, fun dm hd => ?_, fun en' he => ?_, fun p pm' hp => ?_,
    fun en' he p ht => ?_, fun p d hp => ?_⟩
  · obtain ⟨pm₁, hp₁, -, -, hcfg₁⟩ := hpm p pm' hp
    obtain ⟨pm, hp₀, hcfg, -⟩ := hstates p pm₁ hp₁
    rw [hcfg₁, hcfg, hs.sections p pm hp₀, hen, List.length_append, List.length_singleton,
      List.range_succ, List.filter_append]
    congr 1
    · refine List.filter_congr fun e he => ?_
      rw [(sectionOf_concat hen (List.mem_range.mp he).ne).1]
    · rw [List.filter_singleton, hlast]
      simp
  · exact hs.objs dm (hsame.dynmems ▸ hd)
  · rcases List.mem_append.mp (hen ▸ he) with he | he
    · exact hs.values en' he
    · obtain rfl := List.mem_singleton.mp he
      exact hvecs
  · obtain ⟨pm₁, hp₁, hdims₁, -⟩ := hpm p pm' hp
    obtain ⟨pm, hp₀, -, hdims, -⟩ := hstates p pm₁ hp₁
    have hstatics : (s'.pushEntry en).opt.statics p =
        s.opt.statics p + newElems en.dynmem en.ptrtgt p := by
      unfold CfgMem.statics newElems
      rw [hen, List.countP_append, List.countP_singleton]
      simp
    rw [hdims₁, hdims, hs.states p pm hp₀, hstatics]
  · rw [hplen]
    rcases List.mem_append.mp (hen ▸ he) with he | he
    · exact hs.targets en' he p ht
    · obtain rfl := List.mem_singleton.mp he
      obtain ⟨en₀, he₀, hp₀⟩ := htgts p ht
      exact hl.sections en₀ he₀ p hp₀
  · obtain ⟨pm', hp, howner⟩ := Option.bind_eq_some_iff.mp hp
    obtain ⟨pm₁, hp₁, -, howner₁, -⟩ := hpm p pm' hp
    obtain ⟨pm, hp₀, -, -, howner₀⟩ := hstates p pm₁ hp₁
    rw [howner₁, howner₀, newOwner] at howner
    -- the class of a pointer before, or the class of the new one
    have hold : pm.dynmem = some d → ∃ e, (s'.pushEntry en).opt.classOf e = some d ∧
        (s'.pushEntry en).opt.tgt e = some p := by
      intro hd
      obtain ⟨e, hclass, htgt⟩ := hs.owned p d (by rw [hp₀]; exact hd)
      have hlt : e < s.opt.entries.length := by
        obtain ⟨en₀, he₀, -⟩ := Option.bind_eq_some_iff.mp hclass
        exact (List.getElem?_eq_some_iff.mp he₀).1
      refine ⟨e, ?_, ?_⟩
      · rw [CfgMem.classOf, hen, List.getElem?_append_left hlt]
        exact hclass
      · rw [CfgMem.tgt, hen, List.getElem?_append_left hlt]
        exact htgt
    split at howner
    · rename_i htgt
      cases hd : en.dynmem with
      | none =>
        rw [hd, Option.none_or] at howner
        exact hold howner
      | some d' =>
        rw [hd, Option.some_or] at howner
        refine ⟨s.opt.entries.length, ?_, ?_⟩
        · simp [CfgMem.classOf, hen, hd, howner]
        · simp [CfgMem.tgt, hen, htgt]
    · exact hold howner

/-- Only the lists of activated entries change. -/
theorem activate_parts : s.opt.SameParts (s.activate e).opt.toCfgMem := by
  unfold activate
  split
  · refine ⟨rfl, Pointwise.map_modify_eq ?_ _ _, rfl⟩
    exact fun _ => rfl
  · refine ⟨rfl, rfl, ?_⟩
    cases s.inDynmem with
    | none => rfl
    | some d =>
      refine Pointwise.map_modify_eq ?_ _ d
      exact fun _ => rfl

theorem readValue_clean (hl : s.Listed) (hs : s.Clean)
    (h : readValue fl s name line start = .ok s') : s'.Clean := by
  obtain ⟨s₁, en, behind, dynval, g, hentry, -, hs'⟩ := readValue_cases h
  have hpush : Clean { s₁.pushEntry { en with dynval := dynval } with cfgpMap := g } := by
    refine (pushEntry_clean hl hs hentry).of_sameParts ⟨?_, rfl, rfl⟩
    show (s₁.opt.entries ++ [{ en with dynval := dynval }]).map _ = (s₁.opt.entries ++ [en]).map _
    rw [List.map_append, List.map_append]
    rfl
  rcases hs' with rfl | rfl
  · exact hpush
  · exact hpush.of_sameParts activate_parts

theorem readCheck_clean {objcheck : Bool} (hs : s.Clean)
    (h : readCheck fl s objcheck line start = .ok s') : s'.Clean := by
  obtain ⟨s₁, en, a, type, chks, _, _, hlast, hregion, -, rfl⟩ := readCheck_cases h
  obtain ⟨hcfg, -⟩ := setRegion_cfg hregion
  refine hs.of_sameParts ⟨?_, ?_, ?_⟩
  · show (s₁.opt.entries.dropLast ++ [_]).map _ = _
    have hentries : s.opt.entries = s.opt.entries.dropLast ++ [en] :=
      (List.dropLast_append_getLast? en hlast).symm
    rw [hcfg]
    conv_rhs => rw [hentries]
    rw [List.map_append, List.map_append]
    rfl
  · show s₁.opt.ptrmems.map _ = _
    rw [hcfg]
  · show s₁.opt.dynmems.map _ = _
    rw [hcfg]

end Clean

end CfgReader

/-! ### Classes and sections -/

namespace ConfigState

open CfgReader (Listed Clean)

section Lines

variable {fl : FloatLib} {s : ConfigState} {cfgPath name : Str} {n chunk : Nat}
  {lines : List Str}

theorem pushClass_clean (es : DynMemEssentials) (hs : s.toCfgReader.Clean) :
    (s.pushClass (.new name es)).toCfgReader.Clean := by
  refine ⟨hs.sections, fun dm hd => ?_, hs.values, hs.states, hs.targets, hs.owned⟩
  rcases List.mem_append.mp hd with hd | hd
  · exact hs.objs dm hd
  · obtain rfl := List.mem_singleton.mp hd
    exact ⟨rfl, rfl, rfl⟩

theorem modifyClass_clean {d : Nat} {f : DynMemEntry → DynMemEntry} (hs : s.toCfgReader.Clean)
    (hf : ∀ dm, dm.vMsize = [] → (f dm).vMaddr = dm.vMaddr ∧ (f dm).vMsize = [] ∧
      (f dm).numFreed = dm.numFreed) : (s.modifyClass d f).toCfgReader.Clean := by
  refine ⟨hs.sections, fun dm hd => ?_, hs.values, hs.states, hs.targets, hs.owned⟩
  obtain ⟨i, hi⟩ := List.getElem?_of_mem hd
  have hi : (s.opt.dynmems.modify d f)[i]? = some dm := hi
  obtain ⟨dm', hdm', rfl⟩ := Option.map_eq_some_iff.mp (List.getElem?_modify .. ▸ hi)
  obtain ⟨haddr, hsize, hfreed⟩ := hs.objs dm' (List.mem_of_getElem? hdm')
  split
  · obtain ⟨haddr', hsize', hfreed'⟩ := hf dm' hsize
    exact ⟨haddr'.trans haddr, hsize', hfreed'.trans hfreed⟩
  · exact ⟨haddr, hsize, hfreed⟩

theorem pushSection_clean {memSize : SizeT} (hl : s.toCfgReader.Listed)
    (hs : s.toCfgReader.Clean) : (s.pushSection name memSize).toCfgReader.Clean := by
  have hlen : (s.pushSection name memSize).opt.ptrmems.length = s.opt.ptrmems.length + 1 :=
    List.length_append
  have hpm : ∀ (p : Nat) (pm : PtrMemEntry), (s.pushSection name memSize).opt.ptrmems[p]? = some pm →
      s.opt.ptrmems[p]? = some pm ∨
        p = s.opt.ptrmems.length ∧ pm.cfg = [] ∧ pm.dims = (0, 0) ∧ pm.dynmem = none := by
    intro p pm hp
    have hp : (s.opt.ptrmems ++ [⟨name, memSize, [], [], none, [], []⟩] :
      List PtrMemEntry)[p]? = some pm := hp
    rcases lt_or_ge p s.opt.ptrmems.length with hlt | hge
    · rw [List.getElem?_append_left hlt] at hp
      exact .inl hp
    · rw [List.getElem?_append_right hge] at hp
      have hp0 : p - s.opt.ptrmems.length < 1 := by
        simpa using (List.getElem?_eq_some_iff.mp hp).1
      obtain rfl := List.mem_singleton.mp (List.mem_of_getElem? hp)
      exact .inr ⟨by omega, rfl, rfl, rfl⟩
  refine ⟨fun p pm hp => ?_, hs.objs, hs.values, fun p pm hp => ?_, fun en he p ht => ?_,
    fun p d hp => ?_⟩
  · rcases hpm p pm hp with hp | ⟨rfl, hcfg, -⟩
    · exact hs.sections p pm hp
    · rw [hcfg]
      refine (List.filter_eq_nil_iff.mpr fun e he hsec => ?_).symm
      obtain ⟨en, hen, hp⟩ := Option.bind_eq_some_iff.mp (of_decide_eq_true hsec)
      exact absurd (hl.sections en (List.mem_of_getElem? hen) _ hp) (lt_irrefl _)
  · rcases hpm p pm hp with hp | ⟨rfl, -, hdims, -⟩
    · exact hs.states p pm hp
    · have hzero : s.opt.statics s.opt.ptrmems.length = 0 := by
        refine List.countP_eq_zero.mpr fun en he htgt => ?_
        have htgt := (of_decide_eq_true htgt).1
        exact absurd (hs.targets en he _ htgt) (lt_irrefl _)
      show pm.dims = (s.opt.statics _, s.opt.statics _)
      rw [hdims, hzero]
  · exact hlen ▸ Nat.lt_succ_of_lt (hs.targets en he p ht)
  · obtain ⟨pm, hp, hd⟩ := Option.bind_eq_some_iff.mp hp
    rcases hpm p pm hp with hp | ⟨-, -, -, hnone⟩
    · exact hs.owned p d (by rw [hp]; exact hd)
    · rw [hnone] at hd
      cases hd

theorem buildCaches_parts (chunk : Nat) (opt : Options) :
    opt.SameParts (buildCaches chunk opt).toCfgMem := by
  refine ⟨?_, rfl, rfl⟩
  refine List.ext_getElem? fun i => ?_
  unfold buildCaches
  simp only [List.getElem?_map, List.getElem?_mapIdx, Option.map_map]
  rfl

theorem clean_rule (fl : FloatLib) : LineRule fl fun s => s.Listed ∧ s.Clean where
  init := ⟨CfgReader.init_listed, CfgReader.init_clean⟩
  value _ _ _ _ _ hs h := ⟨CfgReader.readValue_listed hs.1 h, CfgReader.readValue_clean hs.1 hs.2 h⟩
  check _ _ _ _ _ hs h := ⟨CfgReader.readCheck_listed hs.1 h, CfgReader.readCheck_clean hs.2 h⟩
  pushClass _ _ es hs hp := ⟨pushClass_listed hs.1 rfl hp, pushClass_clean es hs.2⟩
  addConst s d es hs :=
    ⟨(listed_rule fl).addConst s d es hs.1, modifyClass_clean hs.2 fun _ h => ⟨rfl, h, rfl⟩⟩
  setGrow s d grow hs :=
    ⟨(listed_rule fl).setGrow s d grow hs.1, modifyClass_clean hs.2 fun _ _ => ⟨rfl, rfl, rfl⟩⟩
  pushSection _ _ _ hs hd := ⟨pushSection_listed hs.1 hd, pushSection_clean hs.1 hs.2⟩
  other _ _ hs h := ⟨(listed_rule fl).other _ _ hs.1 h,
    hs.2.of_sameParts (by rw [h.cfg]; exact ⟨rfl, rfl, rfl⟩)⟩
  caches s chunk hs := ⟨(listed_rule fl).caches s chunk hs.1,
    hs.2.of_sameParts (buildCaches_parts chunk s.opt)⟩

end Lines

end ConfigState

/-! ## The start of the main loop -/

/-- **The main loop starts** with a config without objects, whose lists fit together. -/
theorem starts_fresh {fl : FloatLib} {chunk n : Nat} {cfgPath : Str} {preloadLib : Option Str}
    {lines : List Str} {c : ConfigState} {s₀ : Trainer}
    (hread : ConfigState.readConfig fl chunk n cfgPath preloadLib lines = some (.ok c))
    (hstart : s₀.Starts c) (hphase : s₀.phase = .input) : s₀.Fresh ∧ s₀.Activated := by
  obtain ⟨hl, hc⟩ := ConfigState.readConfig_rule (ConfigState.clean_rule fl) hread
  constructor
  · refine ⟨hphase, ?_, ?_, ?_, ?_, ?_⟩
    all_goals rw [hstart.opt]
    · refine .of_sections ?_ fun en he hd => (hl.owner en he).resolve_left fun hnone => ?_
      · refine List.ext_getElem? fun p => ?_
        rw [List.getElem?_map, List.getElem?_map]
        cases hp : c.opt.ptrmems[p]? with
        | none => simp [List.getElem?_eq_none_iff.mp hp]
        | some pm =>
          rw [List.getElem?_range (List.getElem?_eq_some_iff.mp hp).1]
          exact congrArg some (hc.sections p pm hp)
      · rw [hnone] at hd
        cases hd
    · exact fun dm hd => ⟨(hc.objs dm hd).1, (hc.objs dm hd).2.1⟩
    · exact fun dm hd => (hc.objs dm hd).2.2
    · exact fun en he _ => hc.values en he
    · exact hc.states
  · rw [activated_iff_acts, hstart.opt, hstart.cfgAct]
    exact hl.acts

/-- The class of a section has a pointer for it. -/
theorem starts_owned {fl : FloatLib} {chunk n : Nat} {cfgPath : Str} {preloadLib : Option Str}
    {lines : List Str} {c : ConfigState} {s₀ : Trainer}
    (hread : ConfigState.readConfig fl chunk n cfgPath preloadLib lines = some (.ok c))
    (hstart : s₀.Starts c) : s₀.opt.SectionsOwned := by
  rw [hstart.opt]
  exact (ConfigState.readConfig_rule (ConfigState.clean_rule fl) hread).2.owned

/-- A config that is read, and a state that a run reaches. -/
theorem exists_read_run (lines : List Str) (is : List LoopInput) (f : Trainer → Bool)
    (h : (ConfigState.readConfig CfgReader.noFloats 8 0 "game.conf".toList none lines).map
      (·.map fun c => (Run.run (Trainer.step 8) (.ofConfig c) is).map f) = some (.ok (.ok true))) :
    ∃ c s, ConfigState.readConfig CfgReader.noFloats 8 0 "game.conf".toList none lines =
      some (.ok c) ∧ Run.run (Trainer.step 8) (.ofConfig c) is = .ok s ∧ f s = true := by
  obtain ⟨r, hread, hr⟩ := Option.map_eq_some_iff.mp h
  obtain ⟨c, rfl, hrun⟩ := Run.exists_ok_of_map hr
  obtain ⟨s, hs, hf⟩ := Run.exists_ok_of_map hrun
  exact ⟨c, s, hread, hs, hf⟩

end UgTrain
