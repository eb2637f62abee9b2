import UgTrain.Activation
import UgTrain.ConfigRule
import UgTrain.TypeWidth

/-!
# The activation lists of a config

What `read_config` activates and what the keys make of it. `CfgReader.Listed` holds after every line
(`listed_rule`), so that the lists of an accepted config fit together (`readConfig_listed`). A
key flips the entries that are bound to it an odd number of times (`active_toggles`): pressed twice, it
restores the set of the active entries (`actLists_consistent`).
-/

namespace UgTrain

open CLib

/-! ## Lines -/

namespace CfgReader

structure Listed (s : CfgReader) : Prop where
  acts : s.opt.Acts s.cfgAct
  opens : s.Open
  alone : s.inDynmem = none ∨ s.inPtrmem = none
  /-- An entry is in a class or in a section. -/
  owner : ∀ en ∈ s.opt.entries, en.dynmem = none ∨ en.ptrmem = none
  classes : ∀ en ∈ s.opt.entries, ∀ d ∈ en.dynmem, d < s.opt.dynmems.length
  sections : ∀ en ∈ s.opt.entries, ∀ p ∈ en.ptrmem, p < s.opt.ptrmems.length

section Listed

variable {fl : FloatLib} {s s' : CfgReader} {e start behind : Nat} {en : CfgEntry}
  {line name : Str} {keys : List Char}

/-- The owners of the entries. -/
theorem owner_of_map {l l' : List CfgEntry} {en : CfgEntry} (he : en ∈ l')
    (h : l'.map (fun en => (en.dynmem, en.ptrmem, en.ptrtgt)) =
      l.map fun en => (en.dynmem, en.ptrmem, en.ptrtgt)) :
    ∃ en' ∈ l, en'.dynmem = en.dynmem ∧ en'.ptrmem = en.ptrmem := by
  have hmem : (en.dynmem, en.ptrmem, en.ptrtgt) ∈
      l.map fun en => (en.dynmem, en.ptrmem, en.ptrtgt) := by
    rw [← h]
    exact List.mem_map_of_mem he
  obtain ⟨en', hen', heq⟩ := List.mem_map.mp hmem
  simp only [Prod.mk.injEq] at heq
  exact ⟨en', hen', heq.1, heq.2.1⟩

/-- What keeps the lists keeps all of this. -/
theorem Listed.of_sameActs (h : s.Listed) (hs : s.opt.SameActs s'.opt.toCfgMem)
    (hact : s'.cfgAct = s.cfgAct) (hd : ∀ d ∈ s'.inDynmem, d ∈ s.inDynmem)
    (hp : ∀ p ∈ s'.inPtrmem, p ∈ s.inPtrmem) : s'.Listed := by
  have hdlen : s'.opt.dynmems.length = s.opt.dynmems.length := by
    simpa using congrArg List.length hs.classes
  have hplen : s'.opt.ptrmems.length = s.opt.ptrmems.length := by
    simpa using congrArg List.length hs.targets
  refine ⟨hact ▸ hs.acts h.acts, ⟨fun d hm => ?_, fun p hm => ?_⟩, ?_, fun en he => ?_,
    fun en he d hm => ?_, fun en he p hm => ?_⟩
  · exact hdlen ▸ h.opens.dynmem d (hd d hm)
  · exact hplen ▸ h.opens.ptrmem p (hp p hm)
  · rcases h.alone with hnone | hnone
    · refine .inl (Option.eq_none_iff_forall_not_mem.mpr fun d hm => ?_)
      have := hd d hm
      rw [hnone] at this
      cases this
    · refine .inr (Option.eq_none_iff_forall_not_mem.mpr fun p hm => ?_)
      have := hp p hm
      rw [hnone] at this
      cases this
  · obtain ⟨en', he', heqd, heqp⟩ := owner_of_map he hs.entries
    exact heqd ▸ heqp ▸ h.owner en' he'
  · obtain ⟨en', he', heqd, -⟩ := owner_of_map he hs.entries
    exact hdlen ▸ h.classes en' he' d (heqd ▸ hm)
  · obtain ⟨en', he', -, heqp⟩ := owner_of_map he hs.entries
    exact hplen ▸ h.sections en' he' p (heqp ▸ hm)

theorem SameLists.sameActs (h : s.SameLists s') (he : s'.opt.entries = s.opt.entries) :
    s.opt.SameActs s'.opt.toCfgMem :=
  ⟨by rw [h.dynmems], h.ptrmems, by rw [he]⟩

theorem Listed.of_sameLists (h : s.Listed) (hs : s.SameLists s')
    (he : s'.opt.entries = s.opt.entries) : s'.Listed :=
  h.of_sameActs (hs.sameActs he) hs.cfgAct (fun _ hd => hs.inDynmem ▸ hd)
    fun _ hp => hs.inPtrmem ▸ hp

theorem init_listed : init.Listed := by
  refine ⟨⟨List.nodup_nil, ?_, ?_, ?_⟩, init_open, .inl rfl, ?_, ?_, ?_⟩
  all_goals simp [init]

/-! ### Values -/

/-- The entry that comes next is in no list. -/
theorem Listed.fresh (h : s.Listed) : s.opt.entries.length ∉ s.cfgAct ∧
    ∀ pm ∈ s.opt.ptrmems, s.opt.entries.length ∉ pm.cfgAct := by
  refine ⟨fun he => absurd (h.acts.entries _ he).1 (by omega), fun pm hm he => ?_⟩
  obtain ⟨p, hp⟩ := List.getElem?_of_mem hm
  have hsec := (h.acts.targets p pm hp).2 _ he
  rw [CfgMem.sectionOf, List.getElem?_eq_none (le_refl _)] at hsec
  cases hsec

theorem sectionOf_concat {cfg cfg' : CfgMem} (h : cfg'.entries = cfg.entries ++ [en])
    (he : e ≠ cfg.entries.length) : cfg'.sectionOf e = cfg.sectionOf e ∧
      cfg'.classOf e = cfg.classOf e := by
  unfold CfgMem.sectionOf CfgMem.classOf
  rw [h]
  rcases lt_or_gt_of_ne he with hlt | hlt
  · rw [List.getElem?_append_left hlt]
    exact ⟨rfl, rfl⟩
  · rw [List.getElem?_eq_none (by simpa using hlt), List.getElem?_eq_none (by omega)]
    exact ⟨rfl, rfl⟩

theorem pushEntry_listed (h : s.Listed) (hd : en.dynmem = s.inDynmem)
    (hp : en.ptrmem = s.inPtrmem) : (s.pushEntry en).Listed := by
  have hs : s.SameLists (s.pushEntry en) := pushEntry_sameLists
  have hen : (s.pushEntry en).opt.entries = s.opt.entries ++ [en] := rfl
  have hplen : (s.pushEntry en).opt.ptrmems.length = s.opt.ptrmems.length := by
    simpa using congrArg List.length hs.ptrmems
  obtain ⟨hfresh, hfresh'⟩ := h.fresh
  refine ⟨⟨h.acts.nodup, fun e he => ?_, fun d dm hdm => ?_, fun p pm hpm => ?_⟩, hs.opens h.opens,
    h.alone, fun en' he => ?_, fun en' he d hm => ?_, fun en' he p hm => ?_⟩
  · obtain ⟨hlt, hsec⟩ := h.acts.entries e he
    rw [(sectionOf_concat hen (by omega)).1, hen, List.length_append]
    exact ⟨by omega, hsec⟩
  · rw [h.acts.classes d dm hdm]
    refine List.filter_congr fun e he => ?_
    have hne : e ≠ s.opt.entries.length := fun heq => hfresh (heq ▸ he)
    rw [(sectionOf_concat hen hne).2]
  · obtain ⟨pm', hpm', heq⟩ := Pointwise.getElem?_of_map_eq hs.ptrmems.symm hpm
    obtain ⟨hn, hm⟩ := h.acts.targets p pm' hpm'
    rw [← heq]
    refine ⟨hn, fun e he => ?_⟩
    have hne : e ≠ s.opt.entries.length :=
      fun heq => hfresh' pm' (List.mem_of_getElem? hpm') (heq ▸ he)
    rw [(sectionOf_concat hen hne).1]
    exact hm e he
  all_goals rcases List.mem_append.mp (hen ▸ he) with he | he
  · exact h.owner en' he
  · obtain rfl := List.mem_singleton.mp he
    rw [hd, hp]
    exact h.alone
  · exact h.classes en' he d hm
  · obtain rfl := List.mem_singleton.mp he
    exact h.opens.dynmem d (hd ▸ hm)
  · exact hplen ▸ h.sections en' he p hm
  · obtain rfl := List.mem_singleton.mp he
    exact hplen ▸ h.opens.ptrmem p (hp ▸ hm)

/-- An entry of what is open that is in no list yet. -/
structure Fresh (s : CfgReader) (e : Nat) : Prop where
  entry : ∃ en, s.opt.entries[e]? = some en ∧ en.dynmem = s.inDynmem ∧ en.ptrmem = s.inPtrmem
  cfgAct : e ∉ s.cfgAct
  sections : ∀ pm ∈ s.opt.ptrmems, e ∉ pm.cfgAct

theorem pushEntry_fresh (h : s.Listed) (hd : en.dynmem = s.inDynmem)
    (hp : en.ptrmem = s.inPtrmem) : (s.pushEntry en).Fresh s.opt.entries.length := by
  have hs : s.SameLists (s.pushEntry en) := pushEntry_sameLists
  obtain ⟨hfresh, hfresh'⟩ := h.fresh
  refine ⟨⟨en, by simp [pushEntry], hd, hp⟩, hfresh, fun pm hm => ?_⟩
  obtain ⟨p, hpm⟩ := List.getElem?_of_mem hm
  obtain ⟨pm', hpm', heq⟩ := Pointwise.getElem?_of_map_eq hs.ptrmems.symm hpm
  exact heq ▸ hfresh' pm' (List.mem_of_getElem? hpm')

theorem nodup_concat {l : List Nat} (h : l.Nodup) (he : e ∉ l) : (l ++ [e]).Nodup := by
  rw [← List.concat_eq_append]
  exact h.concat he

theorem activate_listed (h : s.Listed) (hf : s.Fresh e) : (s.activate e).Listed := by
  obtain ⟨en, he, hd, hp⟩ := hf.entry
  have hlt : e < s.opt.entries.length := (List.getElem?_eq_some_iff.mp he).1
  have hsec : s.opt.sectionOf e = s.inPtrmem := by simp [CfgMem.sectionOf, he, hp]
  have hclass : s.opt.classOf e = s.inDynmem := by simp [CfgMem.classOf, he, hd]
  unfold activate
  split
  · rename_i p hip
    have hlen : (s.opt.ptrmems.modify p fun pm => { pm with cfgAct := pm.cfgAct ++ [e] }).length =
      s.opt.ptrmems.length := List.length_modify ..
    refine ⟨⟨h.acts.nodup, h.acts.entries, h.acts.classes, fun q pm hq => ?_⟩,
      ⟨h.opens.dynmem, fun q hq => hlen ▸ h.opens.ptrmem q hq⟩, h.alone, h.owner, h.classes,
      fun en hen q hq => hlen ▸ h.sections en hen q hq⟩
    have hq' : (s.opt.ptrmems.modify p fun pm =>
        { pm with cfgAct := pm.cfgAct ++ [e] })[q]? = some pm := hq
    rw [List.getElem?_modify] at hq'
    obtain ⟨pm', hpm', rfl⟩ := Option.map_eq_some_iff.mp hq'
    obtain ⟨hn, hm⟩ := h.acts.targets q pm' hpm'
    split
    · rename_i hpq
      refine ⟨nodup_concat hn (hf.sections pm' (List.mem_of_getElem? hpm')), fun a ha => ?_⟩
      rcases List.mem_append.mp ha with ha | ha
      · exact hm a ha
      · obtain rfl := List.mem_singleton.mp ha
        exact hsec.trans (hip.trans (congrArg some hpq))
    · exact ⟨hn, hm⟩
  · rename_i hip
    have hlen : (s.inDynmem.elim s.opt.dynmems fun d =>
        s.opt.dynmems.modify d fun dm => { dm with cfgAct := dm.cfgAct ++ [e] }).length =
          s.opt.dynmems.length := by
      cases s.inDynmem with
      | none => rfl
      | some d => exact List.length_modify ..
    refine ⟨⟨nodup_concat h.acts.nodup hf.cfgAct, fun a ha => ?_, fun d dm hdm => ?_,
      h.acts.targets⟩, ⟨fun d hd => hlen ▸ h.opens.dynmem d hd, h.opens.ptrmem⟩, h.alone, h.owner,
      fun en hen d hd => hlen ▸ h.classes en hen d hd, h.sections⟩
    · rcases List.mem_append.mp ha with ha | ha
      · exact h.acts.entries a ha
      · obtain rfl := List.mem_singleton.mp ha
        exact ⟨hlt, hsec.trans hip⟩
    · show dm.cfgAct = (s.cfgAct ++ [e]).filter fun e => s.opt.classOf e = some d
      rw [List.filter_append]
      cases hid : s.inDynmem with
      | none =>
        have hdm' : s.opt.dynmems[d]? = some dm := by simpa [hid] using hdm
        rw [h.acts.classes d dm hdm']
        simp [hclass, hid]
      | some d' =>
        have hdm' : (s.opt.dynmems.modify d' fun dm =>
            { dm with cfgAct := dm.cfgAct ++ [e] })[d]? = some dm := by simpa [hid] using hdm
        rw [List.getElem?_modify] at hdm'
        obtain ⟨dm₁, hdm₁, rfl⟩ := Option.map_eq_some_iff.mp hdm'
        by_cases hdd : d' = d
        · subst hdd
          simp [h.acts.classes d' dm₁ hdm₁, hclass, hid]
        · simp [hdd, h.acts.classes d dm₁ hdm₁, hclass, hid]

/-- Keys and the activation state. -/
theorem readValue_listed (hs : s.Listed) (h : readValue fl s name line start = .ok s') :
    s'.Listed := by
  obtain ⟨s₁, en, behind, dynval, g, hentry, -, hs'⟩ := readValue_cases h
  obtain ⟨hsame, hen⟩ := parseEntry_sameLists hentry
  obtain ⟨hd, hp, -⟩ := parseEntry_cases hentry
  have hd₁ : en.dynmem = s₁.inDynmem := hd.trans hsame.inDynmem.symm
  have hp₁ : en.ptrmem = s₁.inPtrmem := hp.trans hsame.inPtrmem.symm
  have hs₁ : s₁.Listed := hs.of_sameLists hsame hen
  have hpush : (s₁.pushEntry { en with dynval := dynval }).Listed := pushEntry_listed hs₁ hd₁ hp₁
  have hfresh : (s₁.pushEntry { en with dynval := dynval }).Fresh s₁.opt.entries.length :=
    pushEntry_fresh hs₁ hd₁ hp₁
  have hbound : ({ s₁.pushEntry { en with dynval := dynval } with cfgpMap := g } : CfgReader).Listed :=
    ⟨hpush.acts, ⟨hpush.opens.dynmem, hpush.opens.ptrmem⟩, hpush.alone, hpush.owner,
      hpush.classes, hpush.sections⟩
  rcases hs' with rfl | rfl
  · exact hbound
  · exact activate_listed hbound ⟨hfresh.entry, hfresh.cfgAct, hfresh.sections⟩

theorem readCheck_listed {objcheck : Bool} (hs : s.Listed)
    (h : readCheck fl s objcheck line start = .ok s') : s'.Listed := by
  obtain ⟨s₁, en, a, type, chks, _, _, hlast, hregion, -, rfl⟩ := readCheck_cases h
  obtain ⟨hsame, hen⟩ := setRegion_sameLists hregion
  have hs₁ := hs.of_sameLists hsame hen
  refine hs₁.of_sameActs ⟨rfl, rfl, ?_⟩ rfl (fun _ hd => hd) fun _ hp => hp
  have hentries : s₁.opt.entries = s.opt.entries.dropLast ++ [en] := by
    rw [hen]
    exact (List.dropLast_append_getLast? en hlast).symm
  show (s₁.opt.entries.dropLast ++ [_]).map _ = _
  rw [hentries, List.dropLast_concat, List.map_append, List.map_append]
  rfl

end Listed

end CfgReader

/-! ### Classes and sections -/

namespace ConfigState

open CfgReader (Listed)

section Lines

variable {fl : FloatLib} {s : ConfigState} {cfgPath name : Str} {n chunk : Nat} {dm : DynMemEntry}
  {lines : List Str}

theorem pushClass_listed (h : s.toCfgReader.Listed) (hdm : dm.cfgAct = [])
    (hp : s.inPtrmem = none) : (s.pushClass dm).toCfgReader.Listed := by
  have hlen : (s.pushClass dm).opt.dynmems.length = s.opt.dynmems.length + 1 :=
    List.length_append
  refine ⟨⟨h.acts.nodup, h.acts.entries, fun d dm' hd => ?_, h.acts.targets⟩,
    ⟨fun d hd => ?_, h.opens.ptrmem⟩, .inr hp, h.owner, fun en he d hd => ?_, h.sections⟩
  · have hd : (s.opt.dynmems ++ [dm])[d]? = some dm' := hd
    rcases lt_or_ge d s.opt.dynmems.length with hlt | hge
    · rw [List.getElem?_append_left hlt] at hd
      exact h.acts.classes d dm' hd
    · -- no entry belongs to the new class
      rw [List.getElem?_append_right hge] at hd
      obtain rfl := List.mem_singleton.mp (List.mem_of_getElem? hd)
      rw [hdm]
      refine (List.filter_eq_nil_iff.mpr fun e he hclass => ?_).symm
      have hclass : s.opt.classOf e = some d := of_decide_eq_true hclass
      obtain ⟨en, hen, hend⟩ := Option.bind_eq_some_iff.mp hclass
      have := h.classes en (List.mem_of_getElem? hen) d hend
      omega
  · obtain rfl : s.opt.dynmems.length = d := Option.some.inj hd
    rw [hlen]
    omega
  · have := h.classes en he d hd
    rw [hlen]
    omega

theorem modifyClass_listed {d : Nat} {f : DynMemEntry → DynMemEntry} (h : s.toCfgReader.Listed)
    (hf : ∀ dm, (f dm).cfgAct = dm.cfgAct) : (s.modifyClass d f).toCfgReader.Listed :=
  h.of_sameActs ⟨Pointwise.map_modify_eq hf _ d, rfl, rfl⟩ rfl (fun _ hd => hd) fun _ hp => hp

theorem pushSection_listed {memSize : SizeT} (hs : s.toCfgReader.Listed) (hd : s.inDynmem = none) :
    (s.pushSection name memSize).toCfgReader.Listed := by
  have hlen : (s.pushSection name memSize).opt.ptrmems.length = s.opt.ptrmems.length + 1 :=
    List.length_append
  refine ⟨⟨hs.acts.nodup, hs.acts.entries, hs.acts.classes, fun p pm hp => ?_⟩,
    ⟨hs.opens.dynmem, fun p hp => ?_⟩, .inl hd, hs.owner, hs.classes, fun en he p hp => ?_⟩
  · have hp : (s.opt.ptrmems ++ [⟨name, memSize, [], [], none, [], []⟩] :
        List PtrMemEntry)[p]? = some pm := hp
    rcases lt_or_ge p s.opt.ptrmems.length with hlt | hge
    · rw [List.getElem?_append_left hlt] at hp
      exact hs.acts.targets p pm hp
    · rw [List.getElem?_append_right hge] at hp
      obtain rfl := List.mem_singleton.mp (List.mem_of_getElem? hp)
      exact ⟨List.nodup_nil, fun e he => absurd he List.not_mem_nil⟩
  · obtain rfl : s.opt.ptrmems.length = p := Option.some.inj hp
    exact hlen ▸ Nat.lt_succ_self _
  · exact hlen ▸ Nat.lt_succ_of_lt (hs.sections en he p hp)

/-- Lines that are about no entry. -/
theorem Listed.of_reader {s s' : CfgReader} (h : s.Listed)
    (hopt : s'.opt.toCfgMem = s.opt.toCfgMem) (hact : s'.cfgAct = s.cfgAct)
    (hd : ∀ d ∈ s'.inDynmem, d ∈ s.inDynmem) (hp : ∀ p ∈ s'.inPtrmem, p ∈ s.inPtrmem) :
    s'.Listed :=
  h.of_sameActs (by rw [hopt]; exact .refl _) hact hd hp

theorem assignCaches_sameActs (chunk : Nat) (opt : Options) :
    opt.SameActs (buildCaches chunk opt).toCfgMem := by
  refine ⟨rfl, rfl, ?_⟩
  refine List.ext_getElem? fun i => ?_
  unfold buildCaches
  simp only [List.getElem?_map, List.getElem?_mapIdx, Option.map_map]
  rfl

/-- Each line leaves lists that fit together. -/
theorem listed_rule (fl : FloatLib) : LineRule fl Listed where
  init := CfgReader.init_listed
  value _ _ _ _ _ hs h := CfgReader.readValue_listed hs h
  check _ _ _ _ _ hs h := CfgReader.readCheck_listed hs h
  pushClass _ _ _ hs hp := pushClass_listed hs rfl hp
  addConst _ _ _ hs := modifyClass_listed hs fun _ => rfl
  setGrow _ _ _ hs := modifyClass_listed hs fun _ => rfl
  pushSection _ _ _ hs hd := pushSection_listed hs hd
  other _ _ hs h := Listed.of_reader hs h.cfg h.cfgAct h.inDynmem h.inPtrmem
  caches s chunk hs :=
    hs.of_sameActs (assignCaches_sameActs chunk s.opt) rfl (fun _ hd => hd) fun _ hp => hp

/-- **An accepted config** has lists that fit together. -/
theorem readConfig_listed {preloadLib : Option Str}
    (h : readConfig fl chunk n cfgPath preloadLib lines = some (.ok s)) : s.toCfgReader.Listed :=
  readConfig_rule (listed_rule fl) h

end Lines

end ConfigState

/-! ## Keys -/

/-- The entry is in a list of active entries. -/
def Trainer.Active (s : Trainer) (e : Nat) : Prop :=
  e ∈ s.cfgAct ∨ ∃ pm ∈ s.opt.ptrmems, e ∈ pm.cfgAct

/-- An entry that a key can switch: it is there, and so is its section. -/
def CfgMem.Switchable (cfg : CfgMem) (e : Nat) : Prop :=
  e < cfg.entries.length ∧ ∀ p ∈ cfg.sectionOf e, p < cfg.ptrmems.length

section Toggle

variable {s s' : Trainer} {e a p : Nat} {l : List Nat} {en : CfgEntry}

/-- An entry is active if it is in its own list. -/
theorem active_iff (h : s.Activated) : s.Active a ↔
    match s.opt.sectionOf a with
    | none => a ∈ s.cfgAct
    | some p => ∃ pm, s.opt.ptrmems[p]? = some pm ∧ a ∈ pm.cfgAct := by
  unfold Trainer.Active
  constructor
  · rintro (ha | ⟨pm, hpm, ha⟩)
    · rw [(h.entries a ha).2]
      exact ha
    · obtain ⟨p, hp⟩ := List.getElem?_of_mem hpm
      rw [(h.targets p pm hp).2 a ha]
      exact ⟨pm, hp, ha⟩
  · cases s.opt.sectionOf a with
    | none => exact .inl
    | some p => exact fun ⟨pm, hp, ha⟩ => .inr ⟨pm, List.mem_of_getElem? hp, ha⟩

theorem mem_toggleList_self (h : l.Nodup) : e ∈ toggleList e l ↔ e ∉ l := by
  unfold toggleList
  split
  · rename_i he
    simp [h.mem_erase_iff, he]
  · rename_i he
    simp [he]

theorem mem_toggleList_ne (h : a ≠ e) : a ∈ toggleList e l ↔ a ∈ l := by
  unfold toggleList
  split
  · exact List.mem_erase_of_ne h
  · simp [h]

theorem toggle_none (he : s.opt.entries[e]? = none) : s.toggle e = s := by
  unfold Trainer.toggle
  rw [he]

theorem toggle_global (he : s.opt.entries[e]? = some en) (hp : en.ptrmem = none) :
    (s.toggle e).cfgAct = toggleList e s.cfgAct ∧ (s.toggle e).opt.ptrmems = s.opt.ptrmems := by
  unfold Trainer.toggle
  rw [he]
  dsimp only
  rw [hp]
  exact ⟨rfl, rfl⟩

theorem toggle_section (he : s.opt.entries[e]? = some en) (hp : en.ptrmem = some p) :
    (s.toggle e).cfgAct = s.cfgAct ∧ (s.toggle e).opt.ptrmems =
      s.opt.ptrmems.modify p fun pm => { pm with cfgAct := toggleList e pm.cfgAct } := by
  unfold Trainer.toggle
  rw [he]
  dsimp only
  rw [hp]
  exact ⟨rfl, rfl⟩

theorem toggle_sectionOf : (s.toggle e).opt.sectionOf a = s.opt.sectionOf a := by
  unfold CfgMem.sectionOf
  rw [toggle_entries]

theorem toggle_ptrmems : (s.toggle e).opt.ptrmems.length = s.opt.ptrmems.length := by
  cases he : s.opt.entries[e]? with
  | none => rw [toggle_none he]
  | some en =>
    cases hp : en.ptrmem with
    | none => rw [(toggle_global he hp).2]
    | some p => rw [(toggle_section he hp).2, List.length_modify]

theorem toggle_switchable : (s.toggle e).opt.Switchable a ↔ s.opt.Switchable a := by
  unfold CfgMem.Switchable
  rw [toggle_sectionOf, toggle_entries, toggle_ptrmems]

theorem active_toggle_self (h : s.Activated) (he : s.opt.Switchable e) :
    (s.toggle e).Active e ↔ ¬ s.Active e := by
  rw [active_iff (activated_toggle h e), active_iff h, toggle_sectionOf]
  obtain ⟨hlt, hsection⟩ := he
  obtain ⟨en, hen⟩ : ∃ en, s.opt.entries[e]? = some en := ⟨_, List.getElem?_eq_getElem hlt⟩
  have hsec : s.opt.sectionOf e = en.ptrmem := by simp [CfgMem.sectionOf, hen]
  cases hp : en.ptrmem with
  | none =>
    rw [hsec, hp]
    dsimp only
    rw [(toggle_global hen hp).1, mem_toggleList_self h.nodup]
  | some p =>
    obtain ⟨pm, hpm⟩ : ∃ pm, s.opt.ptrmems[p]? = some pm :=
      ⟨_, List.getElem?_eq_getElem (hsection p (hsec.trans hp))⟩
    rw [hsec, hp]
    dsimp only
    rw [(toggle_section hen hp).2]
    simp [hpm, mem_toggleList_self (h.targets p pm hpm).1]

theorem active_toggle_ne (hae : a ≠ e ∨ ¬ s.opt.Switchable e) :
    (s.toggle e).Active a ↔ s.Active a := by
  cases he : s.opt.entries[e]? with
  | none => rw [toggle_none he]
  | some en =>
    have hlt : e < s.opt.entries.length := (List.getElem?_eq_some_iff.mp he).1
    have hsec : s.opt.sectionOf e = en.ptrmem := by simp [CfgMem.sectionOf, he]
    cases hp : en.ptrmem with
    | none =>
      have hne : a ≠ e := by
        refine hae.resolve_right (not_not.mpr ⟨hlt, ?_⟩)
        simp [hsec, hp]
      unfold Trainer.Active
      rw [(toggle_global he hp).1, (toggle_global he hp).2, mem_toggleList_ne hne]
    | some p =>
      unfold Trainer.Active
      rw [(toggle_section he hp).1, (toggle_section he hp).2]
      refine or_congr_right ?_
      let f (pm : PtrMemEntry) : PtrMemEntry := { pm with cfgAct := toggleList e pm.cfgAct }
      have hmem : ∀ q pm, s.opt.ptrmems[q]? = some pm →
          (a ∈ (if p = q then f pm else pm).cfgAct ↔ a ∈ pm.cfgAct) := by
        intro q pm hq
        split
        · rename_i hpq
          subst hpq
          refine mem_toggleList_ne (hae.resolve_right (not_not.mpr ⟨hlt, fun q hq' => ?_⟩))
          rw [hsec, hp] at hq'
          cases hq'
          exact (List.getElem?_eq_some_iff.mp hq).1
        · rfl
      constructor
      · rintro ⟨pm, hpm, ha⟩
        obtain ⟨q, hq⟩ := List.getElem?_of_mem hpm
        rw [List.getElem?_modify] at hq
        obtain ⟨pm', hq', rfl⟩ := Option.map_eq_some_iff.mp hq
        exact ⟨pm', List.mem_of_getElem? hq', (hmem q pm' hq').mp ha⟩
      · rintro ⟨pm, hpm, ha⟩
        obtain ⟨q, hq⟩ := List.getElem?_of_mem hpm
        refine ⟨_, List.mem_of_getElem? (i := q) ?_, (hmem q pm hq).mpr ha⟩
        rw [List.getElem?_modify, hq]
        rfl

theorem activated_toggles (h : s.Activated) (l : List Nat) :
    (l.foldl Trainer.toggle s).Activated := by
  induction l generalizing s with
  | nil => exact h
  | cons e l ih => exact ih (activated_toggle h e)

/-- **Toggling** flips the entries that stand in the list an odd number of times. -/
theorem active_toggles (h : s.Activated) : (l.foldl Trainer.toggle s).Active a ↔
    (s.Active a ↔ Even (l.count a) ∨ ¬ s.opt.Switchable a) := by
  induction l generalizing s with
  | nil => simp
  | cons e l ih =>
    rw [List.foldl_cons, ih (activated_toggle h e), toggle_switchable]
    by_cases hae : a = e
    · subst hae
      by_cases hsw : s.opt.Switchable a
      · rw [active_toggle_self h hsw, List.count_cons_self, Nat.even_add_one]
        simp only [hsw, not_true, or_false]
        rw [not_iff_comm]
        exact iff_comm
      · rw [active_toggle_ne (.inr hsw)]
        simp [hsw]
    · rw [active_toggle_ne (.inl hae), List.count_cons_of_ne (Ne.symm hae)]

theorem toggles_switchable : (l.foldl Trainer.toggle s).opt.Switchable a ↔ s.opt.Switchable a := by
  induction l generalizing s with
  | nil => rfl
  | cons e l ih => exact ih.trans toggle_switchable

/-- The same list once more. -/
theorem active_toggles_twice (h : s.Activated) :
    (l.foldl Trainer.toggle (l.foldl Trainer.toggle s)).Active a ↔ s.Active a := by
  rw [active_toggles (activated_toggles h l), active_toggles h, toggles_switchable]
  by_cases hflip : Even (l.count a) ∨ ¬ s.opt.Switchable a
  · simp only [hflip, iff_true]
  · simp only [hflip, iff_false, not_not]

theorem toggle_cfgpMap : (s.toggle e).cfgpMap = s.cfgpMap := by
  unfold Trainer.toggle
  split
  · rfl
  · split <;> rfl

theorem handleInputChar_cfgpMap (s : Trainer) (ch : Nat) :
    (s.handleInputChar ch).cfgpMap = s.cfgpMap := by
  have hfold : ∀ (l : List Nat) (s : Trainer), (l.foldl Trainer.toggle s).cfgpMap = s.cfgpMap := by
    intro l
    induction l with
    | nil => exact fun _ => rfl
    | cons e l ih => exact fun s => (ih _).trans toggle_cfgpMap
  unfold Trainer.handleInputChar
  split
  · rfl
  · split
    · rfl
    · split
      · rfl
      · exact hfold _ s

theorem active_twice (h : s.Activated) (ch : Nat) :
    ((s.handleInputChar ch).handleInputChar ch).Active a ↔ s.Active a := by
  have hmap := handleInputChar_cfgpMap s ch
  unfold Trainer.handleInputChar at hmap ⊢
  split
  · rfl
  · split
    · rfl
    · split
      · rfl
      · rename_i h₁ h₂ h₃
        rw [if_neg h₁, if_neg h₂, if_neg h₃] at hmap
        rw [hmap]
        exact active_toggles_twice h

theorem activated_keys (h : s.Activated) (keys : List Nat) :
    (keys.foldl Trainer.handleInputChar s).Activated := by
  induction keys generalizing s with
  | nil => exact h
  | cons ch keys ih => exact ih (activated_handleInputChar h ch)

end Toggle

/-! ## Consistency -/

/-- **The activation lists are consistent.** -/
structure Trainer.ActLists (s : Trainer) : Prop where
  nodup : s.cfgAct.Nodup ∧ ∀ pm ∈ s.opt.ptrmems, pm.cfgAct.Nodup
  /-- The list of a class has its entries in the order of the list of all. -/
  classes : ∀ (d : Nat) (dm : DynMemEntry), s.opt.dynmems[d]? = some dm →
    dm.cfgAct = s.cfgAct.filter fun e => s.opt.classOf e = some d
  /-- An entry of a section is in the list of this section, if anywhere. -/
  sections : ∀ e p, s.opt.sectionOf e = some p → e ∉ s.cfgAct ∧
    (∀ dm ∈ s.opt.dynmems, e ∉ dm.cfgAct) ∧
    ∀ (q : Nat) (pm : PtrMemEntry), s.opt.ptrmems[q]? = some pm → e ∈ pm.cfgAct → q = p
  others : ∀ e, s.opt.sectionOf e = none → ∀ pm ∈ s.opt.ptrmems, e ∉ pm.cfgAct

theorem Trainer.Activated.actLists {s : Trainer} (h : s.Activated) : s.ActLists := by
  refine ⟨⟨h.nodup, fun pm hm => ?_⟩, h.classes, fun e p he => ?_, fun e he pm hm hmem => ?_⟩
  · obtain ⟨p, hp⟩ := List.getElem?_of_mem hm
    exact (h.targets p pm hp).1
  · have hglobal : e ∉ s.cfgAct := fun hmem => by
      rw [(h.entries e hmem).2] at he
      cases he
    refine ⟨hglobal, fun dm hm hmem => ?_, fun q pm hq hmem => ?_⟩
    · obtain ⟨d, hd⟩ := List.getElem?_of_mem hm
      rw [h.classes d dm hd] at hmem
      exact hglobal (List.mem_of_mem_filter hmem)
    · have hsec := (h.targets q pm hq).2 e hmem
      rw [he] at hsec
      exact (Option.some.inj hsec).symm
  · obtain ⟨p, hp⟩ := List.getElem?_of_mem hm
    have hsec := (h.targets p pm hp).2 e hmem
    rw [he] at hsec
    cases hsec

/-- The main loop has the lists of the config. -/
structure Trainer.Starts (s : Trainer) (c : ConfigState) : Prop where
  opt : s.opt = c.opt
  cfgAct : s.cfgAct = c.cfgAct
  cfgpMap : s.cfgpMap = c.cfgpMap

/-- The main loop as it starts. -/
def Trainer.ofConfig (c : ConfigState) : Trainer := { Trainer.start c.opt.toCfgMem c.cfgAct with
  opt := c.opt
  cfgpMap := c.cfgpMap }

theorem ofConfig_starts (c : ConfigState) : (Trainer.ofConfig c).Starts c := ⟨rfl, rfl, rfl⟩

/-- **Consistency.** After any keys, the lists of an accepted config are consistent, and a key that is
pressed twice restores the set of the active entries. -/
theorem actLists_consistent (fl : FloatLib) (chunk n : Nat) (cfgPath : Str) (preloadLib : Option Str)
    (lines : List Str) (c : ConfigState)
    (hread : ConfigState.readConfig fl chunk n cfgPath preloadLib lines = some (.ok c))
    (s₀ : Trainer) (hstart : s₀.Starts c) (keys : List Nat) :
    (keys.foldl Trainer.handleInputChar s₀).ActLists ∧ ∀ ch e,
      (((keys.foldl Trainer.handleInputChar s₀).handleInputChar ch).handleInputChar ch).Active e ↔
        (keys.foldl Trainer.handleInputChar s₀).Active e := by
  have hacts := (ConfigState.readConfig_listed hread).acts
  have h₀ : s₀.Activated := by
    rw [activated_iff_acts, hstart.opt, hstart.cfgAct]
    exact hacts
  have h := activated_keys h₀ keys
  exact ⟨h.actLists, fun ch e => active_twice h ch⟩

/-- A value outside of the class `Obj`, and one in it whose line has its key twice. -/
def keyLines : List Str :=
  ["game", "Gold 0x10 i32 99 a,b a", "dynmemstart Obj 28 0x4006a0 0x8", "HP 0x4 i32 5 a,a d",
    "dynmemend"].map String.toList

theorem keyLines_accepted : ∃ c,
    ConfigState.readConfig CfgReader.noFloats 8 0 "game.conf".toList none keyLines = some (.ok c) := by
  have hsome : ((ConfigState.readConfig CfgReader.noFloats 8 0 "game.conf".toList none
      keyLines).bind Except.toOption).isSome := by decide +kernel
  obtain ⟨c, hc⟩ := Option.isSome_iff_exists.mp hsome
  obtain ⟨r, hr, hc⟩ := Option.bind_eq_some_iff.mp hc
  refine ⟨c, hr.trans ?_⟩
  cases r with
  | error e => cases hc
  | ok c' =>
    cases hc
    rfl

theorem actLists_example : ∃ s : Trainer, s.ActLists ∧
    ∀ e, ((s.handleInputChar 97).handleInputChar 97).Active e ↔ s.Active e := by
  obtain ⟨c, hc⟩ := keyLines_accepted
  obtain ⟨hlists, htwice⟩ := actLists_consistent CfgReader.noFloats 8 0 "game.conf".toList none
    keyLines c hc (.ofConfig c) (ofConfig_starts c) [97, 98]
  exact ⟨_, hlists, htwice 97⟩

end UgTrain
