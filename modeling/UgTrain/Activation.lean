import UgTrain.ObjRows

/-!
# The activated entries

`Trainer.Activated`: the lists of activated entries name entries of their own class or pointer
section, each once. The list of a class has its entries in the order of the list of all entries. Keys
keep this (`activated_handleInputChar`), and all other phases keep the lists (`step_acts`). No phase
changes the fixed parts of entries and sections (`step_fixed`).
-/

namespace UgTrain

open CLib

/-- The class of an entry. -/
def CfgMem.classOf (cfg : CfgMem) (e : Nat) : Option Nat := cfg.entries[e]?.bind (·.dynmem)

/-- The pointer section that an entry is in. -/
def CfgMem.sectionOf (cfg : CfgMem) (e : Nat) : Option Nat := cfg.entries[e]?.bind (·.ptrmem)

structure CfgMem.Acts (cfg : CfgMem) (cfgAct : List Nat) : Prop where
  nodup : cfgAct.Nodup
  entries : ∀ e ∈ cfgAct, e < cfg.entries.length ∧ cfg.sectionOf e = none
  classes : ∀ (d : Nat) (dm : DynMemEntry), cfg.dynmems[d]? = some dm →
    dm.cfgAct = cfgAct.filter fun e => cfg.classOf e = some d
  targets : ∀ (p : Nat) (pm : PtrMemEntry), cfg.ptrmems[p]? = some pm →
    pm.cfgAct.Nodup ∧ ∀ e ∈ pm.cfgAct, cfg.sectionOf e = some p

structure Trainer.Activated (s : Trainer) : Prop where
  nodup : s.cfgAct.Nodup
  entries : ∀ e ∈ s.cfgAct, e < s.opt.entries.length ∧ s.opt.sectionOf e = none
  classes : ∀ (d : Nat) (dm : DynMemEntry), s.opt.dynmems[d]? = some dm →
    dm.cfgAct = s.cfgAct.filter fun e => s.opt.classOf e = some d
  targets : ∀ (p : Nat) (pm : PtrMemEntry), s.opt.ptrmems[p]? = some pm →
    pm.cfgAct.Nodup ∧ ∀ e ∈ pm.cfgAct, s.opt.sectionOf e = some p

/-! ## Lists -/

section Lists

variable {e : Nat} {l : List Nat}

theorem nodup_toggleList (h : l.Nodup) : (toggleList e l).Nodup := by
  unfold toggleList
  split
  · exact h.erase e
  · rename_i he
    exact List.nodup_append.mpr ⟨h, List.nodup_singleton e, fun a ha b hb hab =>
      he (List.mem_singleton.mp hb ▸ hab ▸ ha)⟩

theorem mem_toggleList {a : Nat} (h : a ∈ toggleList e l) : a ∈ l ∨ a = e := by
  unfold toggleList at h
  split at h
  · exact .inl (List.mem_of_mem_erase h)
  · simpa using h

/-- The list of a class follows. -/
theorem filter_toggleList (h : l.Nodup) (p : Nat → Bool) : (toggleList e l).filter p =
    if p e then (if e ∈ l then (l.filter p).erase e else l.filter p ++ [e]) else l.filter p := by
  unfold toggleList
  by_cases he : e ∈ l
  · rw [if_pos he, if_pos he, h.erase_eq_filter, (h.filter p).erase_eq_filter, List.filter_filter,
      List.filter_filter]
    split
    · exact List.filter_congr fun a _ => Bool.and_comm _ _
    · rename_i hp
      refine List.filter_congr fun a _ => ?_
      by_cases hae : a = e
      · subst hae
        simp [hp]
      · simp [hae]
  · rw [if_neg he, if_neg he, List.filter_append]
    by_cases hp : p e <;> simp [hp]

end Lists

/-! ## Keys -/

section Keys

variable {s s' : Trainer} {e : Nat}

theorem toggle_entries (s : Trainer) (e : Nat) : (s.toggle e).opt.entries = s.opt.entries := by
  unfold Trainer.toggle
  split
  · rfl
  · split <;> rfl

theorem activated_toggle (h : s.Activated) (e : Nat) : (s.toggle e).Activated := by
  unfold Trainer.toggle
  split
  · exact h
  · rename_i en he
    have hlt : e < s.opt.entries.length := (List.getElem?_eq_some_iff.mp he).1
    split
    · rename_i p hp
      refine ⟨h.nodup, h.entries, h.classes, fun q pm hq => ?_⟩
      have hq' : (s.opt.ptrmems.modify p fun pm =>
          { pm with cfgAct := toggleList e pm.cfgAct })[q]? = some pm := hq
      rw [List.getElem?_modify] at hq'
      obtain ⟨pm', hpm', rfl⟩ := Option.map_eq_some_iff.mp hq'
      obtain ⟨hn, hm⟩ := h.targets q pm' hpm'
      split
      · rename_i hpq
        refine ⟨nodup_toggleList hn, fun a ha => ?_⟩
        rcases mem_toggleList ha with ha | rfl
        · exact hm a ha
        · show s.opt.sectionOf a = some q
          simp [CfgMem.sectionOf, he, hp, hpq]
      · exact ⟨hn, hm⟩
    · rename_i hp
      refine ⟨nodup_toggleList h.nodup, fun a ha => ?_, fun d dm hd => ?_, h.targets⟩
      · rcases mem_toggleList ha with ha | rfl
        · exact h.entries a ha
        · exact ⟨hlt, by simp [CfgMem.sectionOf, he, hp]⟩
      · have hclass : s.opt.classOf e = en.dynmem := by simp [CfgMem.classOf, he]
        show dm.cfgAct = (toggleList e s.cfgAct).filter fun e => s.opt.classOf e = some d
        rw [filter_toggleList h.nodup, hclass]
        cases hen : en.dynmem with
        | none =>
          have hd' : s.opt.dynmems[d]? = some dm := by
            simpa [hen] using hd
          simpa using h.classes d dm hd'
        | some d' =>
          have hd' : (s.opt.dynmems.modify d' fun dm => { dm with
              cfgAct := if e ∈ s.cfgAct then dm.cfgAct.erase e else dm.cfgAct ++ [e] })[d]? =
                some dm := by
            simpa [hen] using hd
          rw [List.getElem?_modify] at hd'
          obtain ⟨dm', hdm', rfl⟩ := Option.map_eq_some_iff.mp hd'
          by_cases hdd : d' = d
          · subst hdd
            simp [h.classes d' dm' hdm']
          · simp [hdd, h.classes d dm' hdm']

theorem activated_handleInputChar (h : s.Activated) (ch : Nat) : (s.handleInputChar ch).Activated := by
  have hfold : ∀ (l : List Nat) (s : Trainer), s.Activated → (l.foldl Trainer.toggle s).Activated := by
    intro l
    induction l with
    | nil => exact fun s h => h
    | cons e l ih => exact fun s h => ih _ (activated_toggle h e)
  unfold Trainer.handleInputChar
  split
  · exact ⟨h.nodup, h.entries, h.classes, h.targets⟩
  · split
    · exact ⟨h.nodup, h.entries, h.classes, h.targets⟩
    · split
      · exact h
      · exact hfold _ s h

end Keys

/-! ## Other phases -/

/-- The lists of activated entries, and where entries belong, are the same. -/
structure CfgMem.SameActs (cfg cfg' : CfgMem) : Prop where
  classes : cfg'.dynmems.map (·.cfgAct) = cfg.dynmems.map (·.cfgAct)
  targets : cfg'.ptrmems.map (·.cfgAct) = cfg.ptrmems.map (·.cfgAct)
  entries : cfg'.entries.map (fun en => (en.dynmem, en.ptrmem, en.ptrtgt)) =
    cfg.entries.map fun en => (en.dynmem, en.ptrmem, en.ptrtgt)

section Others

variable {chunk : Nat} {cfg cfg' cfg'' : CfgMem} {s s' s₀ : Trainer} {i : LoopInput}
  {is : List LoopInput}

theorem CfgMem.SameActs.refl (cfg : CfgMem) : cfg.SameActs cfg := ⟨rfl, rfl, rfl⟩

theorem CfgMem.SameActs.trans (h : cfg.SameActs cfg') (h' : cfg'.SameActs cfg'') :
    cfg.SameActs cfg'' :=
  ⟨h'.classes.trans h.classes, h'.targets.trans h.targets, h'.entries.trans h.entries⟩

theorem CfgMem.SameActs.entry (h : cfg.SameActs cfg') (e : Nat) :
    (cfg'.entries[e]?).map (fun en => (en.dynmem, en.ptrmem, en.ptrtgt)) =
      (cfg.entries[e]?).map fun en => (en.dynmem, en.ptrmem, en.ptrtgt) := by
  have := congrArg (·[e]?) h.entries
  simpa only [List.getElem?_map] using this

theorem CfgMem.SameActs.classOf (h : cfg.SameActs cfg') (e : Nat) :
    cfg'.classOf e = cfg.classOf e := by
  have := congrArg (·.bind (·.1)) (h.entry e)
  rw [Option.bind_map, Option.bind_map] at this
  exact this

theorem CfgMem.SameActs.sectionOf (h : cfg.SameActs cfg') (e : Nat) :
    cfg'.sectionOf e = cfg.sectionOf e := by
  have := congrArg (·.bind (·.2.1)) (h.entry e)
  rw [Option.bind_map, Option.bind_map] at this
  exact this

theorem CfgMem.SameActs.acts {cfgAct : List Nat} (h : cfg.SameActs cfg') (ha : cfg.Acts cfgAct) :
    cfg'.Acts cfgAct := by
  refine ⟨ha.nodup, fun e he => ?_, fun d dm hd => ?_, fun p pm hp => ?_⟩
  · obtain ⟨hlt, hs⟩ := ha.entries e he
    have hlen := congrArg List.length h.entries
    rw [List.length_map, List.length_map] at hlen
    exact ⟨hlen ▸ hlt, (h.sectionOf e).trans hs⟩
  · obtain ⟨dm', hd', heq⟩ := Pointwise.getElem?_of_map_eq h.classes.symm hd
    rw [← heq, ha.classes d dm' hd']
    simp only [h.classOf]
  · obtain ⟨pm', hp', heq⟩ := Pointwise.getElem?_of_map_eq h.targets.symm hp
    obtain ⟨hn, hm⟩ := ha.targets p pm' hp'
    exact ⟨heq ▸ hn, fun e he => (h.sectionOf e).trans (hm e (heq ▸ he))⟩

theorem activated_iff_acts : s.Activated ↔ s.opt.Acts s.cfgAct :=
  ⟨fun h => ⟨h.nodup, h.entries, h.classes, h.targets⟩,
    fun h => ⟨h.nodup, h.entries, h.classes, h.targets⟩⟩

theorem CfgMem.SameActs.activated (h : s.opt.SameActs s'.opt.toCfgMem) (ha : s.Activated)
    (hact : s'.cfgAct = s.cfgAct) : s'.Activated := by
  rw [activated_iff_acts] at ha ⊢
  rw [hact]
  exact h.acts ha

/-- The lists of what a change keeps. -/
theorem CfgMem.Keeps.sameActs {β γ : Type} {φ : EntryVals → β} {ψ : PtrMemEntry → γ}
    (h : cfg.Keeps φ DynMemEntry.cfgAct ψ cfg') {g : γ → List Nat}
    (hg : ∀ pm : PtrMemEntry, pm.cfgAct = g (ψ pm)) : cfg.SameActs cfg' := by
  refine ⟨h.classes, ?_, ?_⟩
  · have := congrArg (List.map fun x => g x.2) h.ptrmems
    simpa only [List.map_map, Function.comp_def, ← hg] using this
  · have := congrArg (List.map fun x => (x.1.dynmem, x.1.ptrmem, x.1.ptrtgt)) h.entries
    simp only [List.map_map] at this
    exact this

theorem CfgMem.Rounds.sameActs {f : RoundOps} {k : Nat} (h : cfg.Rounds f k cfg') :
    cfg.SameActs cfg' := by
  refine ⟨by rw [h.same.dynmems], ?_, ?_⟩
  · refine List.ext_getElem? fun p => ?_
    rw [List.getElem?_map, List.getElem?_map, h.ptrmem, Option.map_map]
    refine congrArg (Option.map · _) (funext fun pm => ?_)
    rw [Function.comp, PtrMemEntry.vecOps_eq]
  · refine List.ext_getElem? fun e => ?_
    rw [List.getElem?_map, List.getElem?_map, h.entry, Option.map_map]
    refine congrArg (Option.map · _) (funext fun en => ?_)
    rw [Function.comp, CfgEntry.vecOps_eq]

theorem sameActs_freeDynmem (hl : cfg.Linked) (ha : ∀ dm ∈ cfg.dynmems, dm.Aligned) :
    cfg.SameActs (freeDynmem cfg) := by
  have h := (freedVals_rounds hl).sameActs
  refine ⟨?_, h.targets, h.entries⟩
  refine List.ext_getElem? fun d => ?_
  rw [List.getElem?_map, List.getElem?_map, freeDynmem_dynmem hl ha, Option.map_map]
  refine Option.map_congr fun dm hd => ?_
  simp only [Function.comp]
  split
  · rw [DynMemEntry.eraseObjs_eq (ha dm (List.mem_of_getElem? hd))]
  · rfl

theorem readFifo_cfgAct {msgs : List FifoMsg} (h : Trainer.readFifo msgs s = .ok s') :
    s'.cfgAct = s.cfgAct := by
  have hmsg : ∀ {s s' : Trainer} (msg : FifoMsg), s.handleMsg msg = .ok s' →
      s'.cfgAct = s.cfgAct := by
    intro s s' msg h
    cases msg with
    | malloc m behind ppos =>
      obtain ⟨mq, -, h⟩ := Run.bind_eq_ok.mp h
      cases h
      rfl
    | free memAddr h0 =>
      obtain ⟨⟨cfg, mq⟩, -, h⟩ := Run.bind_eq_ok.mp h
      cases h
      rfl
    | lib libName rlist =>
      cases h
      rfl
    | stackEnd addr =>
      simp only [Trainer.handleMsg] at h
      split at h
      · cases h
        rfl
      · split at h
        · obtain ⟨opt, -, h⟩ := Run.bind_eq_ok.mp h
          cases h
          rfl
        · cases h
          rfl
  induction msgs generalizing s with
  | nil =>
    cases h
    rfl
  | cons msg msgs ih =>
    obtain ⟨s₁, h₁, h⟩ := Run.bind_eq_ok.mp h
    split at h
    · cases h
      exact hmsg msg h₁
    · exact (ih h).trans (hmsg msg h₁)

theorem afterFifo_cfgAct {msgs : List FifoMsg} {f : Trainer → Trainer}
    (hf : ∀ s : Trainer, (f s).cfgAct = s.cfgAct) (h : s.afterFifo msgs f = .ok s') :
    s'.cfgAct = s.cfgAct := by
  unfold Trainer.afterFifo at h
  split at h
  · cases h
    exact hf s
  · obtain ⟨s₁, h₁, h⟩ := Run.bind_eq_ok.mp h
    cases h
    split
    · exact readFifo_cfgAct h₁
    · exact (hf s₁).trans (readFifo_cfgAct h₁)

/-- What a step of a loop keeps, the loop keeps. -/
theorem foldlM_cfgAct {f : Trainer → Nat → Except Fault Trainer}
    (hf : ∀ s s' e, f s e = .ok s' → s'.cfgAct = s.cfgAct) {l : List Nat}
    (h : l.foldlM f s = .ok s') : s'.cfgAct = s.cfgAct := by
  induction l generalizing s with
  | nil =>
    cases h
    rfl
  | cons e l ih =>
    obtain ⟨s₁, h₁, h⟩ := Run.bind_eq_ok.mp h
    exact (ih h).trans (hf s s₁ e h₁)

theorem display_cfgAct {e k : Nat} (h : s.display e k = .ok s') : s'.cfgAct = s.cfgAct := by
  unfold Trainer.display at h
  split at h
  · cases h
  · split at h <;> cases h
    rfl

theorem outputPtrmemValues_cfgAct {p : Nat} (h : s.outputPtrmemValues p = .ok s') :
    s'.cfgAct = s.cfgAct := by
  unfold Trainer.outputPtrmemValues at h
  split at h
  · cases h
  · dsimp only at h
    split at h
    · cases h
    · split at h
      · cases h
        rfl
      · split at h
        · cases h
        · cases h
          rfl
        · split at h
          · exact foldlM_cfgAct (fun _ _ _ => display_cfgAct) h
          · cases h
            rfl

theorem outputMemValue_cfgAct {e : Nat} (h : s.outputMemValue e = .ok s') :
    s'.cfgAct = s.cfgAct := by
  unfold Trainer.outputMemValue at h
  split at h
  · cases h
  · rename_i en he
    dsimp only at h
    split at h
    · split at h
      · cases h
        rfl
      · obtain ⟨s₁, h₁, h⟩ := Run.bind_eq_ok.mp h
        have hd := display_cfgAct h₁
        split at h
        · cases h
          exact hd
        · exact (outputPtrmemValues_cfgAct h).trans hd
    · split at h
      · cases h
        rfl
      · -- the values behind a pointer, or nothing
        repeat' split at h
        all_goals first
          | exact outputPtrmemValues_cfgAct h
          | cases h; rfl

/-- **All phases but the input** keep the activated entries. -/
theorem step_acts (h : s.step chunk i = .ok s') (hl : s.opt.Linked) (ha : s.opt.Aligned)
    (hne : s.phase ≠ .input) : s.opt.SameActs s'.opt.toCfgMem ∧ s'.cfgAct = s.cfgAct := by
  obtain ⟨hproc, hfree, hkicked, hmallocs⟩ := step_others h
  constructor
  · cases hp : s.phase with
    | input => exact absurd hp hne
    | process => exact (hproc hp).sameActs (g := (·.1)) fun _ => rfl
    | free =>
      rw [hfree hp]
      split
      · exact .refl _
      · exact sameActs_freeDynmem hl ha.classes
    | freeKicked =>
      rw [hkicked hp]
      split
      · exact .refl _
      · have hk := outputDynmemChanges_keeps s
        have ha' := ha.of_keeps (hk.toDims EntryVals.dims PtrMemEntry.dims (fun _ => rfl)
          fun _ => rfl)
        exact (hk.sameActs (g := (·.cfgAct)) fun _ => rfl).trans
          (sameActs_freeDynmem (hl.of_keeps hk) ha'.classes)
    | mallocs =>
      rcases hmallocs hp with ⟨dynmems, hg, heq | heq⟩
      · rw [heq]
        exact .refl _
      · rw [heq]
        have hl' : CfgMem.Linked { s.opt.toCfgMem with dynmems := dynmems } :=
          ⟨hl.nodup, hl.mem_cfg, hl.classes⟩
        have hgrow : s.opt.SameActs { s.opt.toCfgMem with dynmems := dynmems } := by
          refine ⟨?_, rfl, rfl⟩
          refine List.ext_getElem? fun d => ?_
          show (dynmems.map (·.cfgAct))[d]? = (s.opt.dynmems.map (·.cfgAct))[d]?
          rw [List.getElem?_map, List.getElem?_map]
          cases hd : dynmems[d]? with
          | none =>
            rw [List.getElem?_eq_none_iff, ← hg.length_eq, ← List.getElem?_eq_none_iff] at hd
            rw [hd]
          | some dm =>
            obtain ⟨dm', hd', hgr⟩ := Pointwise.getElem? hg hd
            rw [hd', Option.map_some, Option.map_some, hgr.cfgAct]
        exact hgrow.trans (allocDynmem_rounds hl'.sections).sameActs
    | fifo | attach | fifoAgain | detach | late | output | stopped =>
      exact ((step_keeps h (by simp [hp])).2 hne).sameActs (g := (·.cfgAct)) fun _ => rfl
  · unfold Trainer.step at h
    cases hp : s.phase with
    | input => exact absurd hp hne
    | fifo =>
      simp only [hp] at h
      refine afterFifo_cfgAct ?_ h
      exact fun _ => rfl
    | fifoAgain =>
      simp only [hp] at h
      refine afterFifo_cfgAct ?_ h
      exact fun _ => rfl
    | free =>
      simp only [hp] at h
      split at h
      · cases h
        rfl
      · split at h <;> cases h <;> rfl
    | attach | detach =>
      simp only [hp] at h
      cases h
      split <;> rfl
    | stopped =>
      simp only [hp] at h
      cases h
      rfl
    | process =>
      simp only [hp] at h
      obtain ⟨p, -, h⟩ := Run.bind_eq_ok.mp h
      cases h
      rfl
    | late =>
      simp only [hp] at h
      obtain ⟨opt, -, h⟩ := Run.bind_eq_ok.mp h
      cases h
      show (s.handleHeapChecks i.heap).cfgAct = s.cfgAct
      unfold Trainer.handleHeapChecks
      split <;> rfl
    | freeKicked =>
      simp only [hp] at h
      split at h <;> cases h <;> rfl
    | output =>
      simp only [hp] at h
      obtain ⟨s₁, h₁, h⟩ := Run.bind_eq_ok.mp h
      cases h
      have := foldlM_cfgAct (fun _ _ _ => outputMemValue_cfgAct) h₁
      exact this
    | mallocs =>
      simp only [hp] at h
      split at h
      · cases h
        rfl
      · obtain ⟨s₁, h₁, h⟩ := Run.bind_eq_ok.mp h
        cases h
        obtain ⟨⟨mq, dynmems⟩, -, h₁⟩ := Run.bind_eq_ok.mp h₁
        cases h₁
        rfl

/-- **Every phase** keeps the activated entries where they belong. -/
theorem step_activated (h : s.step chunk i = .ok s') (hl : s.opt.Linked) (ha : s.opt.Aligned)
    (hact : s.Activated) : s'.Activated := by
  by_cases hp : s.phase = .input
  · unfold Trainer.step at h
    simp only [hp] at h
    cases h
    cases i.key with
    | none => exact ⟨hact.nodup, hact.entries, hact.classes, hact.targets⟩
    | some ch =>
      rw [Option.elim_some]
      split
      · have hk := activated_handleInputChar hact ch
        exact ⟨hk.nodup, hk.entries, hk.classes, hk.targets⟩
      · exact ⟨hact.nodup, hact.entries, hact.classes, hact.targets⟩
  · obtain ⟨hs, hc⟩ := step_acts h hl ha hp
    exact hs.activated hact hc

/-- What holds in every state of a run: the links, the alignment, and the lists. -/
structure Trainer.Inv (s : Trainer) : Prop where
  linked : s.opt.Linked
  aligned : s.opt.Aligned
  activated : s.Activated

theorem step_inv_trainer (hs : s.Inv) (h : s.step chunk i = .ok s') : s'.Inv := by
  obtain ⟨hl, ha⟩ := step_aligned h hs.linked hs.aligned
  exact ⟨hl, ha, step_activated h hs.linked hs.aligned hs.activated⟩

/-- A pointer is processed at its address, or for the objects of its class; it is in no section. -/
theorem PtrPlace.owner {e k : Nat} (hs : s.Activated) (h : PtrPlace s.cfgAct s.opt e k) :
    s.opt.sectionOf e = none ∧ ((s.opt.classOf e = none ∧ k = 0) ∨ ∃ d dm,
      s.opt.classOf e = some d ∧ s.opt.dynmems[d]? = some dm ∧ k < dm.vMaddr.length) := by
  cases h with
  | static hm he hd ht =>
    exact ⟨(hs.entries e hm).2, .inl ⟨by simp [CfgMem.classOf, he, hd], rfl⟩⟩
  | obj hd hm hi he ht =>
    rw [hs.classes _ _ hd, List.mem_filter] at hm
    exact ⟨(hs.entries e hm.1).2, .inr ⟨_, _, by simpa using hm.2, hd, hi⟩⟩

end Others

/-! ## Fixed parts -/

/-- The parts of entries and sections that stay as they are while the main loop runs. -/
structure CfgMem.SameFixed (cfg cfg' : CfgMem) : Prop where
  entries : cfg'.entries.map CfgEntry.fixed = cfg.entries.map CfgEntry.fixed
  ptrmems : cfg'.ptrmems.map PtrMemEntry.fixed = cfg.ptrmems.map PtrMemEntry.fixed

section Fixed

variable {chunk : Nat} {cfg cfg' cfg'' : CfgMem} {s s' s₀ : Trainer} {i : LoopInput}
  {is : List LoopInput} {β γ δ : Type} {φ : EntryVals → β} {χ : DynMemEntry → δ}
  {ψ : PtrMemEntry → γ}

theorem CfgMem.SameFixed.refl (cfg : CfgMem) : cfg.SameFixed cfg := ⟨rfl, rfl⟩

theorem CfgMem.SameFixed.trans (h : cfg.SameFixed cfg') (h' : cfg'.SameFixed cfg'') :
    cfg.SameFixed cfg'' :=
  ⟨h'.entries.trans h.entries, h'.ptrmems.trans h.ptrmems⟩

theorem CfgMem.SameFixed.entry {e : Nat} {en : CfgEntry} (h : cfg.SameFixed cfg')
    (he : cfg'.entries[e]? = some en) : ∃ en', cfg.entries[e]? = some en' ∧ en'.fixed = en.fixed :=
  Pointwise.getElem?_of_map_eq h.entries.symm he

theorem CfgMem.Keeps.sameFixed (h : cfg.Keeps φ χ ψ cfg') : cfg.SameFixed cfg' := by
  constructor
  · have := congrArg (List.map fun x => x.1) h.entries
    simpa only [List.map_map, Function.comp_def] using this
  · have := congrArg (List.map fun x => x.1) h.ptrmems
    simpa only [List.map_map, Function.comp_def] using this

theorem CfgMem.Rounds.sameFixed {f : RoundOps} {k : Nat} (h : cfg.Rounds f k cfg') :
    cfg.SameFixed cfg' := by
  constructor
  · refine List.ext_getElem? fun e => ?_
    rw [List.getElem?_map, List.getElem?_map, h.entry, Option.map_map]
    refine congrArg (Option.map · _) (funext fun en => ?_)
    rw [Function.comp, CfgEntry.vecOps_eq]
    rfl
  · refine List.ext_getElem? fun p => ?_
    rw [List.getElem?_map, List.getElem?_map, h.ptrmem, Option.map_map]
    refine congrArg (Option.map · _) (funext fun pm => ?_)
    rw [Function.comp, PtrMemEntry.vecOps_eq]
    rfl

theorem sameFixed_freeDynmem (hl : cfg.Linked) : cfg.SameFixed (freeDynmem cfg) :=
  have h := (freedVals_rounds hl).sameFixed
  ⟨h.entries, h.ptrmems⟩

/-- **All phases** keep the fixed parts. -/
theorem step_fixed (h : s.step chunk i = .ok s') (hl : s.opt.Linked) :
    s.opt.SameFixed s'.opt.toCfgMem := by
  obtain ⟨hproc, hfree, hkicked, hmallocs⟩ := step_others h
  cases hp : s.phase with
  | process => exact (hproc hp).sameFixed
  | free =>
    rw [hfree hp]
    split
    · exact .refl _
    · exact sameFixed_freeDynmem hl
  | freeKicked =>
    rw [hkicked hp]
    split
    · exact .refl _
    · have hk := outputDynmemChanges_keeps s
      exact hk.sameFixed.trans (sameFixed_freeDynmem (hl.of_keeps hk))
  | mallocs =>
    rcases hmallocs hp with ⟨dynmems, -, heq | heq⟩
    · rw [heq]
      exact .refl _
    · rw [heq]
      have hl' : CfgMem.Linked { s.opt.toCfgMem with dynmems := dynmems } :=
        ⟨hl.nodup, hl.mem_cfg, hl.classes⟩
      have h := (allocDynmem_rounds hl'.sections).sameFixed
      exact ⟨h.entries, h.ptrmems⟩
  | input | fifo | attach | fifoAgain | detach | late | output | stopped =>
    exact (step_keeps h (by simp [hp])).1.sameFixed

theorem run_fixed (h : s₀.Fresh) (hrun : Run.run (Trainer.step chunk) s₀ is = .ok s) :
    s₀.opt.SameFixed s.opt.toCfgMem :=
  (Run.run_inv (P := fun s : Trainer => (s.opt.Linked ∧ s.opt.Aligned) ∧
      s₀.opt.SameFixed s.opt.toCfgMem)
    (fun _ _ _ hs hstep => ⟨step_aligned hstep hs.1.1 hs.1.2,
      hs.2.trans (step_fixed hstep hs.1.1)⟩) ⟨⟨h.linked, h.aligned⟩, .refl _⟩ hrun).2

end Fixed

/-! ## Loaded configs -/

/-- A config without objects, whose lists fit together. -/
def CfgMem.Loaded (cfg : CfgMem) (cfgAct : List Nat) : Prop :=
  cfg.ptrmems.map (·.cfg) = (List.range cfg.ptrmems.length).map (fun p =>
    (List.range cfg.entries.length).filter fun e => cfg.sectionOf e = some p) ∧
  (∀ en ∈ cfg.entries, en.vals.vecs = ([], [], []) ∧ (en.dynmem.isSome → en.ptrmem = none)) ∧
  (∀ dm ∈ cfg.dynmems, dm.vMaddr = [] ∧ dm.vMsize = [] ∧ dm.numFreed = 0) ∧
  (∀ x ∈ cfg.ptrmems.zipIdx, x.1.dims = (cfg.statics x.2, cfg.statics x.2) ∧ x.1.cfgAct.Nodup ∧
    ∀ e ∈ x.1.cfgAct, cfg.sectionOf e = some x.2) ∧
  cfgAct.Nodup ∧ (∀ e ∈ cfgAct, e < cfg.entries.length ∧ cfg.sectionOf e = none) ∧
  ∀ x ∈ cfg.dynmems.zipIdx, x.1.cfgAct = cfgAct.filter fun e => cfg.classOf e = some x.2

instance (cfg : CfgMem) (cfgAct : List Nat) : Decidable (cfg.Loaded cfgAct) :=
  inferInstanceAs (Decidable (_ ∧ _))

section Loaded

variable {cfg : CfgMem} {cfgAct : List Nat}

theorem CfgMem.Loaded.fresh (h : cfg.Loaded cfgAct) : (Trainer.start cfg cfgAct).Fresh := by
  obtain ⟨hcfg, hen, hdm, hpm, -⟩ := h
  refine ⟨rfl, .of_sections hcfg fun en he => (hen en he).2,
    fun dm hm => ⟨(hdm dm hm).1, (hdm dm hm).2.1⟩, fun dm hm => (hdm dm hm).2.2,
    fun en he _ => (hen en he).1, fun p pm hp => ?_⟩
  exact (hpm (pm, p) (List.mk_mem_zipIdx_iff_getElem?.mpr hp)).1

theorem CfgMem.Loaded.activated (h : cfg.Loaded cfgAct) : (Trainer.start cfg cfgAct).Activated := by
  obtain ⟨-, -, -, hpm, hnodup, hentries, hclasses⟩ := h
  refine ⟨hnodup, hentries, fun d dm hd => ?_, fun p pm hp => ?_⟩
  · exact hclasses (dm, d) (List.mk_mem_zipIdx_iff_getElem?.mpr hd)
  · exact (hpm (pm, p) (List.mk_mem_zipIdx_iff_getElem?.mpr hp)).2

end Loaded

end UgTrain
