import UgTrain.Activation
import UgTrain.Visits

/-!
# Vectors of pointer sections

Each pointer of a class adds an element to the vectors of its section for each of its objects, and
each pointer outside of classes has added one at start. So a pointer has the section to itself
(`CfgMem.Unshared`) exactly if the vectors have one element per object of its class
(`targetsAligned_iff`).

* `PtrStep`: what a phase does to the elements of a section, as it does it to the objects.
* `Options.InRange`: the indices that the processing uses are in range, in all of a cycle if they
  are at its start (`cycle_inRange`).
-/

namespace UgTrain

open CLib

/-- A pointer of a class, and its section. -/
structure CfgMem.ObjPtr (cfg : CfgMem) (e d p : Nat) (dm : DynMemEntry) (pm : PtrMemEntry) :
    Prop where
  entry : ∃ en, cfg.entries[e]? = some en ∧ en.dynmem = some d ∧ en.ptrtgt = some p
  dynmem : cfg.dynmems[d]? = some dm
  ptrmem : cfg.ptrmems[p]? = some pm

/-- The vectors of a section have one element per object of a class that points to it. -/
def CfgMem.TargetsAligned (cfg : CfgMem) : Prop :=
  ∀ e d p dm pm, cfg.ObjPtr e d p dm pm →
    pm.vState.length = dm.vMaddr.length ∧ pm.vOffs.length = dm.vMaddr.length ∧
      ∀ t ∈ pm.cfg, ∀ ten, cfg.entries[t]? = some ten →
        ten.vals.vOldval.length = dm.vMaddr.length ∧ ten.vals.vValue.length = dm.vMaddr.length ∧
          ten.vals.vCstr.length = dm.vMaddr.length

/-- The section of a pointer of a class is named by no pointer outside of classes, and by no other
pointer whose class has objects. -/
def CfgMem.Unshared (cfg : CfgMem) : Prop :=
  ∀ e d p dm pm, cfg.ObjPtr e d p dm pm →
    cfg.statics p = 0 ∧ ∀ e', e' ≠ e → cfg.tgt e' = some p → cfg.numObjs e' = 0

section Lengths

variable {cfg cfg' : CfgMem} {e d p k : Nat} {dm : DynMemEntry} {pm : PtrMemEntry}
  {cnt : Nat → Nat}

theorem CfgMem.ObjPtr.tgt (h : cfg.ObjPtr e d p dm pm) : cfg.tgt e = some p := by
  obtain ⟨en, he, -, ht⟩ := h.entry
  simp [CfgMem.tgt, he, ht]

theorem CfgMem.ObjPtr.lt (h : cfg.ObjPtr e d p dm pm) : e < cfg.entries.length := by
  obtain ⟨en, he, -⟩ := h.entry
  exact (List.getElem?_eq_some_iff.mp he).1

theorem CfgMem.ObjPtr.objs (h : cfg.ObjPtr e d p dm pm) :
    ∃ en, cfg.entries[e]? = some en ∧ cfg.objs en = some dm.vMaddr := by
  obtain ⟨en, he, hd, -⟩ := h.entry
  exact ⟨en, he, by simp [CfgMem.objs, hd, h.dynmem]⟩

theorem CfgMem.ObjPtr.numObjs (h : cfg.ObjPtr e d p dm pm) :
    cfg.numObjs e = dm.vMaddr.length := by
  obtain ⟨en, he, ho⟩ := h.objs
  exact numObjs_of_objs he ho

theorem sumTo_eq_iff (ht : cfg.tgt e = some p) (hk : e < k) : cfg.sumTo p cnt k = cnt e ↔
    ∀ e' < k, e' ≠ e → cfg.tgt e' = some p → cnt e' = 0 := by
  have hsplit := Finset.add_sum_erase (Finset.range k)
    (fun e' => if cfg.tgt e' = some p then cnt e' else 0) (Finset.mem_range.mpr hk)
  simp only [ht, if_true] at hsplit
  have hzero := Finset.sum_eq_zero_iff (s := (Finset.range k).erase e)
    (f := fun e' => if cfg.tgt e' = some p then cnt e' else 0)
  have hsum : cfg.sumTo p cnt k = cnt e ↔
      (∑ e' ∈ (Finset.range k).erase e, if cfg.tgt e' = some p then cnt e' else 0) = 0 := by
    unfold CfgMem.sumTo
    omega
  rw [hsum, hzero]
  constructor
  · intro h e' hlt hne ht'
    simpa [ht'] using h e' (Finset.mem_erase.mpr ⟨hne, Finset.mem_range.mpr hlt⟩)
  · intro h e' he'
    obtain ⟨hne, hlt⟩ := Finset.mem_erase.mp he'
    split
    · rename_i ht'
      exact h e' (Finset.mem_range.mp hlt) hne ht'
    · rfl

theorem numObjs_of_le {e' : Nat} (h : cfg.entries.length ≤ e') : cfg.numObjs e' = 0 := by
  simp [CfgMem.numObjs, List.getElem?_eq_none h]

/-- A pointer has the section to itself exactly if the numbers are the same. -/
theorem CfgMem.ObjPtr.reachedObjs_iff (h : cfg.ObjPtr e d p dm pm) :
    cfg.statics p + cfg.reachedObjs p = dm.vMaddr.length ↔
      cfg.statics p = 0 ∧ ∀ e', e' ≠ e → cfg.tgt e' = some p → cfg.numObjs e' = 0 := by
  have hiff : cfg.reachedObjs p = cfg.numObjs e ↔ _ := sumTo_eq_iff h.tgt h.lt
  have hle : cfg.numObjs e ≤ cfg.reachedObjs p := by
    have hs := Finset.single_le_sum
      (f := fun e' => if cfg.tgt e' = some p then cfg.numObjs e' else 0)
      (fun _ _ => Nat.zero_le _) (Finset.mem_range.mpr h.lt)
    simp only [h.tgt, if_true] at hs
    exact hs
  have hforall : (∀ e', e' ≠ e → cfg.tgt e' = some p → cfg.numObjs e' = 0) ↔
      ∀ e' < cfg.entries.length, e' ≠ e → cfg.tgt e' = some p → cfg.numObjs e' = 0 := by
    refine ⟨fun h e' _ => h e', fun h e' hne ht => ?_⟩
    by_cases hlt : e' < cfg.entries.length
    · exact h e' hlt hne ht
    · exact numObjs_of_le (by omega)
  rw [hforall, ← hiff, ← h.numObjs]
  unfold CfgMem.reachedObjs at *
  omega

/-- **One element per object** of a class exactly if the section is not shared. -/
theorem targetsAligned_iff (h : cfg.Aligned) : cfg.TargetsAligned ↔ cfg.Unshared := by
  constructor
  · intro ht e d p dm pm hp
    obtain ⟨hlen, -⟩ := ht e d p dm pm hp
    refine hp.reachedObjs_iff.mp ?_
    rw [← hlen]
    exact (congrArg (·.1) (h.counts.states p pm hp.ptrmem)).symm
  · intro hu e d p dm pm hp
    have hlen := hp.reachedObjs_iff.mpr (hu e d p dm pm hp)
    have hs := h.counts.states p pm hp.ptrmem
    refine ⟨(congrArg (·.1) hs).trans hlen, (congrArg (·.2) hs).trans hlen, fun t ht ten hten => ?_⟩
    have hv := h.counts.targets p pm t ten hp.ptrmem ht hten
    have hlen' : cfg.reachedObjs p = dm.vMaddr.length := by
      have := (hu e d p dm pm hp).1
      omega
    exact ⟨(congrArg (·.1) hv).trans hlen', (congrArg (·.2.1) hv).trans hlen',
      (congrArg (·.2.2) hv).trans hlen'⟩

end Lengths

/-! ## Elements of a section -/

/-- What a phase does to elements that stand beside the objects of a class. -/
def RowsStep {α : Type} (phase : Phase) (removes : Bool) (new : α) (rows rows' : List (Ptr × α)) :
    Prop :=
  match phase with
  | .free | .freeKicked => rows' = if removes then rows.filter (·.1 ≠ 0) else rows
  | .mallocs => ∃ ms : List Ptr, rows' = rows ++ ms.map fun m => (m, new)
  | .process => List.Forall₂ (fun r r' => r'.1 = r.1 ∨ r'.1 = 0) rows rows'
  | _ => List.Forall₂ (fun r r' => (r'.1 = r.1 ∨ r'.1 = 0) ∧ r'.2 = r.2) rows rows'

/-- The objects of a pointer with the states and the addresses of their targets. -/
def CfgMem.stateRows (cfg : CfgMem) (e : Nat) : List (Ptr × PtrState × Ptr) :=
  match cfg.entries[e]?.bind cfg.objs, (cfg.tgt e).bind (cfg.ptrmems[·]?) with
  | some mvec, some pm => mvec.zip (pm.vState.zip pm.vOffs)
  | _, _ => []

/-- The objects of a pointer with the values of the entry `t` of its section. -/
def CfgMem.targetRows (cfg : CfgMem) (e t : Nat) :
    List (Ptr × Value × Value × Option (List UInt8)) :=
  match cfg.entries[e]?.bind cfg.objs, cfg.entries[t]? with
  | some mvec, some ten =>
    mvec.zip (ten.vals.vOldval.zip (ten.vals.vValue.zip ten.vals.vCstr))
  | _, _ => []

/-- Whether a phase removes objects. -/
def Trainer.removes (s : Trainer) : Bool :=
  !s.pureStatmem && (s.phase = .freeKicked || s.cfgAct ≠ [])

/-- What a phase does to the section of a pointer. -/
def Trainer.PtrStep (s s' : Trainer) : Prop :=
  ∀ e d p dm pm, s.opt.ObjPtr e d p dm pm →
    RowsStep s.phase s.removes (.init, 0) (s.opt.stateRows e) (s'.opt.stateRows e) ∧
      ∀ t ∈ pm.cfg, ∀ ten, s.opt.entries[t]? = some ten →
        RowsStep s.phase s.removes (0, ten.vals.value, ten.newCstr) (s.opt.targetRows e t)
          (s'.opt.targetRows e t)

section Elements

variable {cfg cfg' : CfgMem} {e d p t : Nat} {dm : DynMemEntry} {pm : PtrMemEntry}
  {ten : CfgEntry} {f : RoundOps}

theorem CfgMem.ObjPtr.stateRows_eq (h : cfg.ObjPtr e d p dm pm) :
    cfg.stateRows e = dm.vMaddr.zip (pm.vState.zip pm.vOffs) := by
  obtain ⟨en, he, ho⟩ := h.objs
  simp [CfgMem.stateRows, he, ho, h.tgt, h.ptrmem]

theorem CfgMem.ObjPtr.targetRows_eq (h : cfg.ObjPtr e d p dm pm)
    (ht : cfg.entries[t]? = some ten) : cfg.targetRows e t =
      dm.vMaddr.zip (ten.vals.vOldval.zip (ten.vals.vValue.zip ten.vals.vCstr)) := by
  obtain ⟨en, he, ho⟩ := h.objs
  simp [CfgMem.targetRows, he, ho, ht]

/-- If no other pointer of the section has anything to do, all is done for the objects of one. -/
theorem CfgMem.ObjPtr.ptrmemOps_eq (h : cfg.ObjPtr e d p dm pm)
    (hothers : ∀ e', e' ≠ e → cfg.tgt e' = some p → cfg.opsOf f e' = []) :
    cfg.ptrmemOps f cfg.entries.length p = cfg.opsOf f e := by
  have hsplit : ∀ n, cfg.ptrmemOps f n p = if e < n then cfg.opsOf f e else [] := by
    intro n
    induction n with
    | zero => rfl
    | succ n ih =>
      rw [ptrmemOps_succ, ih]
      by_cases hen : n = e
      · subst hen
        simp [h.tgt]
      · have hnil : (if cfg.tgt n = some p then cfg.opsOf f n else []) = [] := by
          split
          · rename_i ht
            exact hothers n hen ht
          · rfl
        have hlt : e < n + 1 ↔ e < n := by omega
        simp only [hnil, List.append_nil, hlt]
  rw [hsplit, if_pos h.lt]

theorem CfgMem.ObjPtr.rounds (h : cfg.ObjPtr e d p dm pm) {k : Nat}
    (hr : cfg.Rounds f k cfg') :
    cfg'.ObjPtr e d p dm (pm.vecOps (cfg.ptrmemOps f k p)) := by
  obtain ⟨en, he, hd, ht⟩ := h.entry
  refine ⟨⟨_, by rw [hr.entry, he]; rfl, by simpa using hd, by simpa using ht⟩, ?_, ?_⟩
  · rw [hr.same.dynmems]
    exact h.dynmem
  · rw [hr.ptrmem, h.ptrmem]
    rfl

theorem CfgMem.Linked.entryOps_section (hl : cfg.Linked) (h : cfg.ObjPtr e d p dm pm)
    (hm : t ∈ pm.cfg) (hothers : ∀ e', e' ≠ e → cfg.tgt e' = some p → cfg.opsOf f e' = []) :
    cfg.entryOps f cfg.entries.length t = cfg.opsOf f e :=
  (hl.entryOps_target h.ptrmem hm _).trans (h.ptrmemOps_eq hothers)

theorem opsOf_free_eq_nil {e' : Nat} (ha : cfg.Aligned) (h0 : cfg.numObjs e' = 0) :
    cfg.opsOf freeOps e' = [] := by
  rcases opsOf_free ha.counts e' with ⟨hnil, -⟩ | ⟨mvec, hops, hlen, -⟩
  · exact hnil
  · obtain rfl : mvec = [] := List.length_eq_zero_iff.mp (hlen.trans h0)
    rw [hops]
    rfl

/-- **`free_dynmem`** removes the elements of the objects that it removes. -/
theorem rows_free_section (hl : cfg.Linked) (ha : cfg.Aligned) (hu : cfg.Unshared)
    (h : cfg.ObjPtr e d p dm pm) :
    (freeDynmem cfg).stateRows e = (cfg.stateRows e).filter (·.1 ≠ 0) ∧
      ∀ t ∈ pm.cfg, ∀ ten, cfg.entries[t]? = some ten →
        (freeDynmem cfg).targetRows e t = (cfg.targetRows e t).filter (·.1 ≠ 0) := by
  have hr := freedVals_rounds hl
  have hp := h.rounds hr
  obtain ⟨en, he, ho⟩ := h.objs
  have hothers : ∀ e', e' ≠ e → cfg.tgt e' = some p → cfg.opsOf freeOps e' = [] :=
    fun e' hne ht => opsOf_free_eq_nil ha ((hu e d p dm pm h).2 e' hne ht)
  have hops : cfg.opsOf freeOps e = (freeMarks 0 dm.vMaddr.length dm.vMaddr).map some := by
    rw [opsOf_of_objs ha.counts he ho, numObjs_of_objs he ho]
    rfl
  have hv : ∀ {γ : Type} (x : γ) (l : List γ), l.length = dm.vMaddr.length →
      vecOps x (cfg.opsOf freeOps e) l = keepObjs dm.vMaddr l := by
    intro γ x l hlen
    rw [hops, ← hlen]
    exact vecOps_free hlen.le
  -- The pointer after the removal.
  have hdm : (freeDynmem cfg).dynmems[d]? = some dm.eraseObjs := by
    obtain ⟨en', he', hd, -⟩ := h.entry
    have hrefs : Refs cfg.entries d := List.mem_map.mpr ⟨en', List.mem_of_getElem? he', hd⟩
    rw [freeDynmem_dynmem hl ha.classes, h.dynmem, Option.map_some, if_pos hrefs]
  have hp' : (freeDynmem cfg).ObjPtr e d p dm.eraseObjs
      (pm.vecOps (cfg.ptrmemOps freeOps cfg.entries.length p)) := ⟨hp.entry, hdm, hp.ptrmem⟩
  have hmaddr : dm.eraseObjs.vMaddr = dm.vMaddr.filter (· ≠ 0) := by
    rw [DynMemEntry.eraseObjs_eq (ha.classes dm (List.mem_of_getElem? h.dynmem))]
  obtain ⟨hs, hoffs, hts⟩ := (targetsAligned_iff ha).mpr hu e d p dm pm h
  constructor
  · rw [hp'.stateRows_eq, h.stateRows_eq, hmaddr, PtrMemEntry.vecOps_eq, h.ptrmemOps_eq hothers]
    simp only [hv _ _ hs, hv _ _ hoffs]
    rw [← keepObjs_zip hs hoffs, ← filter_zip (by simp [hs, hoffs])]
  · intro t ht ten hten
    obtain ⟨h1, h2, h3⟩ := hts t ht ten hten
    have hten' : (freeDynmem cfg).entries[t]? =
        some (ten.vecOps (cfg.entryOps freeOps cfg.entries.length t)) := by
      rw [freeDynmem_entries, hr.entry, hten]
      rfl
    rw [hp'.targetRows_eq hten', h.targetRows_eq hten, hmaddr, CfgEntry.vecOps_eq,
      hl.entryOps_section h ht hothers]
    simp only [hv _ _ h1, hv _ _ h2, hv _ _ h3]
    rw [← keepObjs_zip h2 h3, ← keepObjs_zip h1 (by simp [h2, h3]),
      ← filter_zip (by simp [h1, h2, h3])]

/-- **`alloc_dynmem`** appends an element for each new object. -/
theorem rows_alloc_section {dynmems : List DynMemEntry} (hl : cfg.Linked) (ha : cfg.Aligned)
    (hg : List.Forall₂ DynMemEntry.Grows cfg.dynmems dynmems) (hu : cfg.Unshared)
    (hu' : (allocDynmem { cfg with dynmems := dynmems }).Unshared)
    (h : cfg.ObjPtr e d p dm pm) : ∃ ms : List Ptr,
    (allocDynmem { cfg with dynmems := dynmems }).stateRows e =
        cfg.stateRows e ++ ms.map (fun m => (m, .init, 0)) ∧
      ∀ t ∈ pm.cfg, ∀ ten, cfg.entries[t]? = some ten →
        (allocDynmem { cfg with dynmems := dynmems }).targetRows e t =
          cfg.targetRows e t ++ ms.map fun m => (m, 0, ten.vals.value, ten.newCstr) := by
  have hl' : CfgMem.Linked { cfg with dynmems := dynmems } := ⟨hl.nodup, hl.mem_cfg, hl.classes⟩
  have hr := allocDynmem_rounds hl'.sections
  have hc := ha.counts.of_grows hg
  obtain ⟨en, he, ho⟩ := h.objs
  obtain ⟨dm', hdm', hgr⟩ := Pointwise.getElem? hg.flip h.dynmem
  obtain ⟨ms, ss, hlen, hm, hs'⟩ := DynMemEntry.Grows.objs hgr
  have h' : CfgMem.ObjPtr { cfg with dynmems := dynmems } e d p dm' pm :=
    ⟨h.entry, hdm', h.ptrmem⟩
  have hp' := h'.rounds hr
  have hothers : ∀ e', e' ≠ e → CfgMem.tgt { cfg with dynmems := dynmems } e' = some p →
      CfgMem.opsOf allocOps { cfg with dynmems := dynmems } e' = [] := by
    intro e' hne ht
    have h0 := (hu' e d p dm' _ hp').2 e' hne ((hr.tgt e').trans ht)
    rw [hr.numObjs] at h0
    rw [opsOf_alloc hc, h0, Nat.zero_sub]
    rfl
  have hops : CfgMem.opsOf allocOps { cfg with dynmems := dynmems } e =
      List.replicate ms.length none := by
    rw [opsOf_alloc hc, h'.numObjs, h.numObjs, hm, List.length_append, Nat.add_sub_cancel_left]
  obtain ⟨h1, h2, hts⟩ := (targetsAligned_iff ha).mpr hu e d p dm pm h
  refine ⟨ms, ?_, fun t ht ten hten => ?_⟩
  · rw [hp'.stateRows_eq, h.stateRows_eq, hm, PtrMemEntry.vecOps_eq, h'.ptrmemOps_eq hothers]
    simp only [hops, vecOps_replicate]
    rw [List.zip_append (by omega), List.zip_append (by simp; omega), List.zip_replicate',
      zip_replicate_length]
  · obtain ⟨h3, h4, h5⟩ := hts t ht ten hten
    have hten' : (allocDynmem { cfg with dynmems := dynmems }).entries[t]? =
        some (ten.vecOps (CfgMem.entryOps allocOps { cfg with dynmems := dynmems }
          cfg.entries.length t)) := by
      rw [hr.entry]
      exact congrArg (Option.map _) hten
    rw [hp'.targetRows_eq hten', h.targetRows_eq hten, hm, CfgEntry.vecOps_eq,
      hl'.entryOps_section h' ht hothers]
    simp only [hops, vecOps_replicate]
    rw [List.zip_append (by omega), List.zip_append (by simp; omega),
      List.zip_append (by simp; omega), List.zip_replicate', List.zip_replicate',
      zip_replicate_length]

/-- A pointer and its section after a change that keeps them. -/
theorem CfgMem.ObjPtr.of_keeps {β γ δ : Type} {φ : EntryVals → β} {χ : DynMemEntry → δ}
    {ψ : PtrMemEntry → γ} (h : cfg.ObjPtr e d p dm pm) (hk : cfg.Keeps φ χ ψ cfg') :
    ∃ dm' pm', cfg'.ObjPtr e d p dm' pm' ∧ dm.Keeps dm' ∧ pm'.fixed = pm.fixed ∧ ψ pm' = ψ pm := by
  obtain ⟨en, he, hd, ht⟩ := h.entry
  obtain ⟨en', he', heq⟩ := Pointwise.getElem?_of_map_eq hk.entries he
  obtain ⟨hd', -, ht', -⟩ := fixed_fields (congrArg (·.1) heq)
  obtain ⟨pm', hp', hpeq⟩ := Pointwise.getElem?_of_map_eq hk.ptrmems h.ptrmem
  obtain ⟨dm', hdm', hkd⟩ := Pointwise.getElem? hk.dynmems.flip h.dynmem
  exact ⟨dm', pm', ⟨⟨en', he', hd'.trans hd, ht'.trans ht⟩, hdm', hp'⟩, hkd,
    congrArg (·.1) hpeq, congrArg (·.2) hpeq⟩

/-- The elements stay in place, and with what `φ` and `ψ` say of them. -/
theorem rows_section_of_keeps {χ : DynMemEntry → Unit}
    (hk : cfg.Keeps EntryVals.vecs χ PtrMemEntry.vecs cfg') (h : cfg.ObjPtr e d p dm pm) :
    List.Forall₂ (fun r r' => (r'.1 = r.1 ∨ r'.1 = 0) ∧ r'.2 = r.2) (cfg.stateRows e)
        (cfg'.stateRows e) ∧
      ∀ t ∈ pm.cfg, ∀ ten, cfg.entries[t]? = some ten →
        List.Forall₂ (fun r r' => (r'.1 = r.1 ∨ r'.1 = 0) ∧ r'.2 = r.2) (cfg.targetRows e t)
          (cfg'.targetRows e t) := by
  obtain ⟨dm', pm', h', hkd, -, hv⟩ := h.of_keeps hk
  constructor
  · have h1 : pm'.vState = pm.vState := congrArg (·.1) hv
    have h2 : pm'.vOffs = pm.vOffs := congrArg (·.2) hv
    rw [h.stateRows_eq, h'.stateRows_eq, h1, h2]
    exact (Pointwise.zip hkd.vMaddr (Pointwise.refl (R := Eq) (fun _ => rfl) _)).imp
      fun r r' h => ⟨h.1, h.2.symm⟩
  · intro t _ ten hten
    obtain ⟨ten', hten', heq⟩ := Pointwise.getElem?_of_map_eq hk.entries hten
    have hv : ten'.vals.vecs = ten.vals.vecs := congrArg (·.2) heq
    have h1 : ten'.vals.vOldval = ten.vals.vOldval := congrArg (·.1) hv
    have h2 : ten'.vals.vValue = ten.vals.vValue := congrArg (·.2.1) hv
    have h3 : ten'.vals.vCstr = ten.vals.vCstr := congrArg (·.2.2) hv
    rw [h.targetRows_eq hten, h'.targetRows_eq hten', h1, h2, h3]
    exact (Pointwise.zip hkd.vMaddr (Pointwise.refl (R := Eq) (fun _ => rfl) _)).imp
      fun r r' h => ⟨h.1, h.2.symm⟩

/-- The processing keeps the elements in place. -/
theorem rows_section_of_process (hk : cfg.Keeps EntryVals.dims DynMemEntry.cfgAct
    PtrMemEntry.actDims cfg') (h : cfg.ObjPtr e d p dm pm) :
    List.Forall₂ (fun r r' => r'.1 = r.1 ∨ r'.1 = 0) (cfg.stateRows e) (cfg'.stateRows e) ∧
      ∀ t ∈ pm.cfg, ∀ ten, cfg.entries[t]? = some ten →
        List.Forall₂ (fun r r' => r'.1 = r.1 ∨ r'.1 = 0) (cfg.targetRows e t)
          (cfg'.targetRows e t) := by
  obtain ⟨dm', pm', h', hkd, -, hv⟩ := h.of_keeps hk
  constructor
  · have h1 : pm'.vState.length = pm.vState.length := congrArg (·.2.1) hv
    have h2 : pm'.vOffs.length = pm.vOffs.length := congrArg (·.2.2) hv
    have hlen : (pm.vState.zip pm.vOffs).length = (pm'.vState.zip pm'.vOffs).length := by
      simp [h1, h2]
    rw [h.stateRows_eq, h'.stateRows_eq]
    exact (Pointwise.zip hkd.vMaddr (Pointwise.of_length hlen)).imp fun r r' h => h.1
  · intro t _ ten hten
    obtain ⟨ten', hten', heq⟩ := Pointwise.getElem?_of_map_eq hk.entries hten
    have hv : ten'.vals.dims = ten.vals.dims := congrArg (·.2) heq
    have h1 : ten'.vals.vOldval.length = ten.vals.vOldval.length := congrArg (·.1) hv
    have h2 : ten'.vals.vValue.length = ten.vals.vValue.length := congrArg (·.2.1) hv
    have h3 : ten'.vals.vCstr.length = ten.vals.vCstr.length := congrArg (·.2.2) hv
    have hlen : (ten.vals.vOldval.zip (ten.vals.vValue.zip ten.vals.vCstr)).length =
        (ten'.vals.vOldval.zip (ten'.vals.vValue.zip ten'.vals.vCstr)).length := by
      simp [h1, h2, h3]
    rw [h.targetRows_eq hten, h'.targetRows_eq hten']
    exact (Pointwise.zip hkd.vMaddr (Pointwise.of_length hlen)).imp fun r r' h => h.1

end Elements

section Steps

variable {chunk : Nat} {s s' : Trainer} {i : LoopInput}

/-- The counts that are reset for the output are of no object. -/
theorem objs_outputDynmemChanges (s : Trainer) (en : CfgEntry) :
    s.outputDynmemChanges.opt.objs en = s.opt.objs en := by
  unfold CfgMem.objs Trainer.outputDynmemChanges
  cases en.dynmem with
  | none => rfl
  | some d => cases h : s.opt.dynmems[d]? <;> simp [h]

theorem rows_outputDynmemChanges (s : Trainer) (e : Nat) :
    s.outputDynmemChanges.opt.stateRows e = s.opt.stateRows e ∧
      ∀ t, s.outputDynmemChanges.opt.targetRows e t = s.opt.targetRows e t := by
  have hobjs : s.outputDynmemChanges.opt.objs = s.opt.objs :=
    funext (objs_outputDynmemChanges s)
  constructor
  · unfold CfgMem.stateRows
    rw [hobjs]
    rfl
  · intro t
    unfold CfgMem.targetRows
    rw [hobjs]
    rfl

theorem unshared_outputDynmemChanges (h : s.opt.Unshared) : s.outputDynmemChanges.opt.Unshared := by
  intro e d p dm pm hp
  obtain ⟨dm', hd', -⟩ := (outputDynmemChanges_keeps s).dynmem hp.dynmem
  obtain ⟨hst, hothers⟩ := h e d p dm' pm ⟨hp.entry, hd', hp.ptrmem⟩
  refine ⟨hst, fun e' hne ht => ?_⟩
  rw [(outputDynmemChanges_keeps s).numObjs]
  exact hothers e' hne ht

/-- **Each phase** does to the elements of a section what it does to the objects. -/
theorem step_ptr (h : s.step chunk i = .ok s') (hs : s.Inv) (hu : s.opt.Unshared)
    (hu' : s'.opt.Unshared) : s.PtrStep s' := by
  obtain ⟨hproc, hfree, hkicked, hmallocs⟩ := step_others h
  intro e d p dm pm hp
  unfold RowsStep Trainer.removes
  cases hph : s.phase with
  | process => exact rows_section_of_process (hproc hph) hp
  | free =>
    simp only [hfree hph]
    by_cases hrem : s.cfgAct = [] ∨ s.pureStatmem
    · rw [if_pos hrem]
      rcases hrem with h0 | h0 <;> simp [h0]
    · rw [if_neg hrem]
      rw [not_or] at hrem
      have := rows_free_section hs.linked hs.aligned hu hp
      simpa [hrem.1, hrem.2] using this
  | freeKicked =>
    simp only [hkicked hph]
    by_cases hpure : s.pureStatmem
    · simp [hpure]
    · have hk := outputDynmemChanges_keeps s
      have ha := hs.aligned.of_keeps (hk.toDims EntryVals.dims PtrMemEntry.dims (fun _ => rfl)
        fun _ => rfl)
      obtain ⟨dm', pm', hp', -, hf, -⟩ := hp.of_keeps hk
      have hcfg : pm'.cfg = pm.cfg := congrArg (·.cfg) hf
      obtain ⟨hst, hts⟩ := rows_free_section (hs.linked.of_keeps hk) ha
        (unshared_outputDynmemChanges hu) hp'
      obtain ⟨hst', hts'⟩ := rows_outputDynmemChanges s e
      rw [hst'] at hst
      have hts₂ : ∀ t ∈ pm.cfg, ∀ ten, s.opt.entries[t]? = some ten →
          (freeDynmem s.outputDynmemChanges.opt.toCfgMem).targetRows e t =
            (s.opt.targetRows e t).filter (·.1 ≠ 0) := by
        intro t ht ten hten
        rw [hts t (hcfg ▸ ht) ten hten, hts']
      simpa [hpure] using And.intro hst hts₂
  | mallocs =>
    rcases hmallocs hph with ⟨dynmems, hg, heq | heq⟩
    · rw [heq]
      exact ⟨⟨[], by simp⟩, fun t _ ten _ => ⟨[], by simp⟩⟩
    · rw [heq]
      rw [heq] at hu'
      obtain ⟨ms, hst, hts⟩ := rows_alloc_section hs.linked hs.aligned hg hu hu' hp
      exact ⟨⟨ms, hst⟩, fun t ht ten hten => ⟨ms, hts t ht ten hten⟩⟩
  | input | fifo | attach | fifoAgain | detach | late | output | stopped =>
    exact rows_section_of_keeps (step_keeps h (by simp [hph])).1 hp

end Steps

/-! ## Elements in a cycle -/

/-- What a section says of an object changes only where the pointer of this object is followed, or a
value of it is read. -/
def ProcState.Describes (ps ps' : ProcState) : Prop :=
  ∀ e d p dm pm, ps.opt.ObjPtr e d p dm pm →
    (∀ pm', ps'.opt.ptrmems[p]? = some pm' → ∀ i : Nat,
      (pm'.vState[i]? = pm.vState[i]? ∧ pm'.vOffs[i]? = pm.vOffs[i]?) ∨
        ∃ offs, .follow e i offs ∈ ps'.events ∧ pm'.vOffs[i]? = (pm.vOffs[i]?).map fun _ => offs) ∧
    ∀ t ∈ pm.cfg, ∀ ten ten', ps.opt.entries[t]? = some ten → ps'.opt.entries[t]? = some ten' →
      ∀ i : Nat, (ten'.vals.old? (some i) = ten.vals.old? (some i) ∧
        ten'.vals.wish? (some i) = ten.vals.wish? (some i) ∧
        ten'.vals.cstr? (some i) = ten.vals.cstr? (some i)) ∨
          ∃ buf, .read t (some i) buf ∈ ps'.events

section Cycle

variable {s : Trainer} {ps ps' : ProcState} {e d p : Nat} {dm : DynMemEntry} {pm : PtrMemEntry}

/-- Where the section of a pointer is not shared, no other pointer to it is processed. -/
theorem CfgMem.ObjPtr.owner {e' i : Nat} (hp : s.opt.ObjPtr e d p dm pm) (hs : s.Activated)
    (hu : s.opt.Unshared) (hpl : PtrPlace s.cfgAct s.opt e' i) (ht : s.opt.tgt e' = some p) :
    e' = e := by
  by_contra hne
  obtain ⟨hst, hothers⟩ := hu e d p dm pm hp
  have h0 := hothers e' hne ht
  obtain ⟨en, he, hen⟩ := Option.bind_eq_some_iff.mp ht
  rcases hpl.owner hs with ⟨-, ⟨hc, -⟩ | ⟨d', dm', hc, hd', hi⟩⟩
  · have hc' : en.dynmem = none := by simpa [CfgMem.classOf, he] using hc
    have hpos := List.countP_eq_zero.mp hst en (List.mem_of_getElem? he)
    simp [hen, hc'] at hpos
  · have ho : s.opt.objs en = some dm'.vMaddr := by
      have hc' : en.dynmem = some d' := by simpa [CfgMem.classOf, he] using hc
      simp [CfgMem.objs, hc', hd']
    rw [numObjs_of_objs he ho] at h0
    omega

theorem steps_describes (hs : s.Inv) (hu : s.opt.Unshared) (hopt : ps.opt = s.opt)
    (h : Steps (Allowed s.cfgAct s.opt) ps ps') : ps.Describes ps' := by
  intro e d p dm pm hp
  induction h with
  | refl =>
    refine ⟨fun pm' hp' i => ?_, fun t _ ten ten' h h' i => ?_⟩
    · cases hp.ptrmem.symm.trans hp'
      exact .inl ⟨rfl, rfl⟩
    · cases h.symm.trans h'
      exact .inl ⟨rfl, rfl, rfl⟩
  | @tail ps₁ ps₂ hsteps hprim ih =>
    obtain ⟨ihp, iht⟩ := ih
    have hev : ∀ ev ∈ ps₁.events, ev ∈ ps₂.events := by
      intro ev hm
      rcases hprim.events with h0 | ⟨ev', -, h1⟩
      · exact h0 ▸ hm
      · rw [h1]
        exact List.mem_append_left _ hm
    refine ⟨fun pm₂ hp₂ i => ?_, fun t ht ten ten₂ h h₂ i => ?_⟩
    · obtain ⟨pm₁, hp₁, -⟩ := hprim.same.symm.ptrmem hp₂
      have hih := (ihp pm₁ hp₁ i).imp_right (Exists.imp fun _ => And.imp_left (hev _))
      rcases hprim.ptrmem hp₁ with heq | ⟨e', j, en, he, ht, hC, hnew, -, heq⟩
      · cases hp₂.symm.trans heq
        exact hih
      · cases hp₂.symm.trans heq
        -- Only the pointer itself is followed.
        obtain ⟨en₀, he₀, hsh⟩ := (Steps.same hsteps).symm.entry he
        obtain ⟨-, -, -, -, ht₀, -⟩ := CfgEntry.shape_fields hsh
        have htgt : s.opt.tgt e' = some p := by
          rw [← hopt]
          simp [CfgMem.tgt, he₀, ht₀, ht]
        obtain rfl := (hopt ▸ hp).owner hs.activated hu hC htgt
        by_cases hij : j = i
        · subst hij
          refine .inr ⟨ps₁.buf, by simp [hnew], ?_⟩
          obtain ⟨pm₀, hp₀, hps⟩ := (Steps.same hsteps).symm.ptrmem hp₁
          cases hp.ptrmem.symm.trans hp₀
          have hlen := (PtrMemEntry.shape_fields hps).2.2.2.2
          by_cases hj : j < pm.vOffs.length
          · rw [List.getElem?_set_self (by omega), List.getElem?_eq_getElem hj, Option.map_some]
          · rw [List.getElem?_eq_none (by simp; omega), List.getElem?_eq_none (by omega),
              Option.map_none]
        · simpa only [List.getElem?_set_ne hij] using hih
    · obtain ⟨ten₁, h₁, -⟩ := hprim.same.symm.entry h₂
      have hih := (iht t ht ten ten₁ h h₁ i).imp_right (Exists.imp fun _ => hev _)
      obtain ⟨v', hv', hcase⟩ := hprim.entry h₁
      cases h₂.symm.trans hv'
      rcases hcase with hsame | ⟨slot, hC, hnew, hr⟩ | ⟨j, value, hC, -⟩
      · obtain ⟨h1, h2, h3⟩ := hsame (some i)
        rw [h1, h2, h3]
        exact hih
      · by_cases hi : some i = slot
        · subst hi
          exact .inr ⟨ps₁.buf, by simp [hnew]⟩
        · obtain ⟨h1, h2, h3⟩ := hr.others (some i) hi
          rw [h1, h2, h3]
          exact hih
      · -- An entry of a section is not processed as a pointer.
        obtain ⟨hsec, -⟩ := PtrPlace.owner hs.activated hC
        obtain ⟨ten', h', hten'⟩ := (hs.linked.mem_cfg p pm t (hopt ▸ hp.ptrmem)).mp ht
        simp [CfgMem.sectionOf, h', hten'] at hsec

end Cycle

/-! ## Indices -/

/-- The value of an entry is used by another entry or by a check. -/
def CfgMem.Refers (cfg : CfgMem) (t : Nat) : Prop :=
  ∃ en ∈ cfg.entries, en.cfgRef = some t ∨ ∃ chk ∈ en.checks.getD [], chk.cfgRef = some t

/-- The section of a pointer belongs to the class with the objects, and where its values are used,
the class is at one of its objects: it has not lost objects since the last cycle, or is at a lower
one. -/
def CfgMem.RefsUsable (cfg : CfgMem) : Prop :=
  ∀ e d p dm pm, cfg.ObjPtr e d p dm pm → dm.vMaddr ≠ [] → pm.dynmem = some d ∧
    ∀ t ∈ pm.cfg, cfg.Refers t → dm.objIdx < dm.vMaddr.length

/-- The indices that the processing uses for the sections of pointers are in range. -/
def Options.InRange (opt : Options) : Prop :=
  ∀ e d p dm pm, opt.ObjPtr e d p dm pm →
    (∀ (i : Nat) (a : Ptr), dm.vMaddr[i]? = some a →
      pointerSlot opt pm.dynmem i = .ok (some i, a) ∧ i < pm.vState.length ∧
        i < pm.vOffs.length ∧ ∀ t ∈ pm.cfg, ∀ ten, opt.entries[t]? = some ten →
          i < ten.vals.vOldval.length ∧ i < ten.vals.vValue.length ∧ i < ten.vals.vCstr.length) ∧
    ∀ t ∈ pm.cfg, opt.Refers t → ∃ r, handleCfgRef opt t = .ok r

section Indices

variable {opt : Options} {C : ProcEvent → Prop} {ps ps' : ProcState} {e d p : Nat}
  {dm : DynMemEntry} {pm : PtrMemEntry}

theorem refVal_ok {v : EntryVals} {objIdx n : Nat} (hv : v.dims = (n, n, n)) (hi : objIdx < n) :
    ∃ r, v.refVal objIdx = .ok r := by
  have h1 : v.vOldval.length = n := congrArg (·.1) hv
  have h2 : v.vValue.length = n := congrArg (·.2.1) hv
  have hlen : (if v.valSet then v.vValue else v.vOldval).length = n := by
    split
    · exact h2
    · exact h1
  unfold EntryVals.refVal
  generalize (if v.valSet then v.vValue else v.vOldval) = vvec at hlen ⊢
  dsimp only
  split
  · exact ⟨_, rfl⟩
  · split
    · exact ⟨_, rfl⟩
    · rename_i hnone
      rw [List.getElem?_eq_none_iff] at hnone
      omega

/-- Aligned vectors and usable references: all indices are in range. -/
theorem inRange_of (hl : opt.Linked) (ht : opt.TargetsAligned) (hr : opt.RefsUsable) :
    opt.InRange := by
  intro e d p dm pm hp
  obtain ⟨h1, h2, h3⟩ := ht e d p dm pm hp
  constructor
  · intro i a hi
    have hlt : i < dm.vMaddr.length := (List.getElem?_eq_some_iff.mp hi).1
    obtain ⟨hd, -⟩ := hr e d p dm pm hp (List.ne_nil_of_length_pos (by omega))
    refine ⟨?_, by omega, by omega, fun t hm ten hten => ?_⟩
    · simp [pointerSlot, Options.dynmem?, hd, hp.dynmem, hi]
    · obtain ⟨h4, h5, h6⟩ := h3 t hm ten hten
      omega
  · intro t hm href
    obtain ⟨ten, hten, hsec⟩ := (hl.mem_cfg p pm t hp.ptrmem).mp hm
    obtain ⟨h4, h5, h6⟩ := h3 t hm ten hten
    have hdyn : ten.dynmem = none := by
      by_contra hne
      rw [hl.classes t ten hten (Option.isSome_iff_ne_none.mpr hne)] at hsec
      cases hsec
    unfold handleCfgRef
    simp only [hten, hdyn, Options.dynmem?, Option.bind_none, hsec, Option.bind_some, hp.ptrmem]
    cases hpd : pm.dynmem.bind (opt.dynmems[·]?) with
    | none => exact ⟨_, rfl⟩
    | some dm' =>
      have hlen : (if ten.vals.valSet then ten.vals.vValue else ten.vals.vOldval).length =
          dm.vMaddr.length := by
        split
        · exact h5
        · exact h4
      generalize (if ten.vals.valSet then ten.vals.vValue else ten.vals.vOldval) = vvec at hlen ⊢
      simp only
      split
      · exact ⟨_, rfl⟩
      · rename_i hvec
        have hne : dm.vMaddr ≠ [] := by
          intro h0
          rw [h0] at hlen
          exact hvec (List.length_eq_zero_iff.mp hlen)
        obtain ⟨hd, hidx⟩ := hr e d p dm pm hp hne
        obtain rfl : dm = dm' := by
          rw [hd, Option.bind_some, hp.dynmem] at hpd
          exact Option.some.inj hpd
        have hi := hidx t hm href
        split
        · rename_i hnone
          rw [List.getElem?_eq_none_iff] at hnone
          omega
        · exact ⟨_, rfl⟩
        · exact refVal_ok (n := dm.vMaddr.length) (by simp [EntryVals.dims, h4, h5, h6]) hi

theorem refers_of_same {opt' : Options} (h : opt.Same opt') {t : Nat} (hr : opt'.Refers t) :
    opt.Refers t := by
  obtain ⟨en', hen', hr⟩ := hr
  obtain ⟨e, he'⟩ := List.mem_iff_getElem?.mp hen'
  obtain ⟨en, he, hs⟩ := h.symm.entry he'
  have h1 : en.cfgRef = en'.cfgRef := congrArg (·.1.cfgRef) hs
  have h2 : en.checks = en'.checks := congrArg (·.1.checks) hs
  exact ⟨en, List.mem_of_getElem? he, by rw [h1, h2]; exact hr⟩

/-- The object that a class is at changes to one of its objects only. -/
def DynMemEntry.IdxMoves (dm dm' : DynMemEntry) : Prop :=
  dm'.vMaddr.length = dm.vMaddr.length ∧
    (dm'.objIdx = dm.objIdx ∨ dm'.objIdx < dm'.vMaddr.length)

theorem DynMemEntry.IdxMoves.refl (dm : DynMemEntry) : dm.IdxMoves dm := ⟨rfl, .inl rfl⟩

theorem DynMemEntry.IdxMoves.trans (a b c : DynMemEntry) (h : a.IdxMoves b) (h' : b.IdxMoves c) :
    a.IdxMoves c := by
  obtain ⟨hl, hi⟩ := h
  obtain ⟨hl', hi'⟩ := h'
  refine ⟨hl'.trans hl, ?_⟩
  omega

theorem Prim.idxMoves (h : Prim C ps ps') :
    List.Forall₂ DynMemEntry.IdxMoves ps.opt.dynmems ps'.opt.dynmems := by
  cases h with
  | mem | read | store | pointer | move | settle => exact Pointwise.refl .refl _
  | objIdx hd hi =>
    refine Pointwise.modify .refl fun dm' hd' => ?_
    cases hd.symm.trans hd'
    exact ⟨rfl, .inr hi⟩
  | kick =>
    refine Pointwise.modify .refl fun dm' _ => ?_
    exact ⟨List.length_set .., .inl rfl⟩

theorem Steps.idxMoves (h : Steps C ps ps') :
    List.Forall₂ DynMemEntry.IdxMoves ps.opt.dynmems ps'.opt.dynmems := by
  induction h with
  | refl => exact Pointwise.refl .refl _
  | tail _ hp ih => exact Pointwise.trans DynMemEntry.IdxMoves.trans ih hp.idxMoves

theorem Steps.refsUsable (h : Steps C ps ps') (hr : ps.opt.RefsUsable) : ps'.opt.RefsUsable := by
  intro e d p dm' pm' hp hne
  obtain ⟨en', he', hd', ht'⟩ := hp.entry
  obtain ⟨en, he, hs⟩ := h.same.symm.entry he'
  obtain ⟨-, -, hd, -, ht, -⟩ := CfgEntry.shape_fields hs
  obtain ⟨pm, hpm, hps⟩ := h.same.symm.ptrmem hp.ptrmem
  obtain ⟨hcfg, -, hdyn, -, -⟩ := PtrMemEntry.shape_fields hps
  obtain ⟨dm, hdm, hlen, hidx⟩ := Pointwise.getElem? h.idxMoves hp.dynmem
  have hp₀ : ps.opt.ObjPtr e d p dm pm :=
    ⟨⟨en, he, hd.trans hd', ht.trans ht'⟩, hdm, hpm⟩
  have hne₀ : dm.vMaddr ≠ [] := by
    intro h0
    rw [h0] at hlen
    exact hne (List.length_eq_zero_iff.mp hlen)
  obtain ⟨hown, hrefs⟩ := hr e d p dm pm hp₀ hne₀
  refine ⟨hdyn ▸ hown, fun t ht href => ?_⟩
  have := hrefs t (hcfg ▸ ht) (refers_of_same h.same href)
  omega

theorem unshared_of_keeps {cfg cfg' : CfgMem} (h : cfg.Unshared) (hk : cfg.KeepsDims cfg') :
    cfg'.Unshared := by
  intro e d p dm' pm' hp
  obtain ⟨en', he', hd', ht'⟩ := hp.entry
  obtain ⟨en, he, hf, -⟩ := hk.entry he'
  obtain ⟨hd, -, ht, -⟩ := fixed_fields hf
  obtain ⟨pm, hpm, -⟩ := hk.ptrmem hp.ptrmem
  obtain ⟨dm, hdm, -⟩ := hk.dynmem hp.dynmem
  obtain ⟨hst, hothers⟩ := h e d p dm pm ⟨⟨en, he, hd.trans hd', ht.trans ht'⟩, hdm, hpm⟩
  refine ⟨(hk.statics p).trans hst, fun e' hne ht => ?_⟩
  rw [hk.numObjs]
  exact hothers e' hne ((hk.tgt e').symm.trans ht)

/-- **The indices are in range in all of a cycle** if they are at its start. -/
theorem cycle_inRange (hl : ps.opt.Linked) (ha : ps.opt.Aligned) (hu : ps.opt.Unshared)
    (hr : ps.opt.RefsUsable) (h : Steps C ps ps') : ps'.opt.InRange := by
  have hk : ps.opt.toCfgMem.KeepsDims ps'.opt.toCfgMem :=
    h.keeps.toDims id (·.2) (fun _ => rfl) fun _ => rfl
  exact inRange_of (hl.of_keeps hk)
    ((targetsAligned_iff (ha.of_keeps hk)).mpr (unshared_of_keeps hu hk)) (h.refsUsable hr)

end Indices

/-! ## Output -/

section Output

variable {s s' : Trainer} {e d p i : Nat} {dm : DynMemEntry} {pm : PtrMemEntry}

theorem display_ok {en : CfgEntry} {n : Nat} (he : s.opt.entries[e]? = some en)
    (hv : en.vals.dims = (n, n, n)) (hi : i < n) : ∃ s', s.display e i = .ok s' := by
  have h1 : en.vals.vOldval.length = n := congrArg (·.1) hv
  have h2 : en.vals.vValue.length = n := congrArg (·.2.1) hv
  have h3 : en.vals.vCstr.length = n := congrArg (·.2.2) hv
  unfold Trainer.display
  rw [he]
  dsimp only
  rw [if_pos (by omega)]
  exact ⟨_, rfl⟩

theorem displays_ok {n : Nat} {l : List Nat} (hi : i < n)
    (hl : ∀ t ∈ l, ∃ ten, s.opt.entries[t]? = some ten ∧ ten.vals.dims = (n, n, n)) :
    ∃ s', l.foldlM (fun (s : Trainer) t => s.display t i) s = .ok s' := by
  induction l generalizing s with
  | nil => exact ⟨s, rfl⟩
  | cons t l ih =>
    obtain ⟨ten, ht, hv⟩ := hl t List.mem_cons_self
    obtain ⟨s₁, h₁⟩ := display_ok ht hv hi
    have hk := display_keeps h₁
    obtain ⟨s', h'⟩ := ih (s := s₁) fun t' ht' => by
      obtain ⟨ten', hten', hv'⟩ := hl t' (List.mem_cons_of_mem t ht')
      obtain ⟨ten₁, hten₁, heq⟩ := Pointwise.getElem?_of_map_eq hk.entries hten'
      have hvecs : ten₁.vals.vecs = ten'.vals.vecs := congrArg (·.2) heq
      have hdims := congrArg (fun x : List Value × List Value × List (Option (List UInt8)) =>
        (x.1.length, x.2.1.length, x.2.2.length)) hvecs
      exact ⟨ten₁, hten₁, hdims.trans hv'⟩
    refine ⟨s', ?_⟩
    rw [List.foldlM_cons, h₁]
    exact h'

/-- The object whose values are shown. -/
theorem shown_lt {n : Nat} (prIdx : U32) (hn : 0 < n) :
    (if n ≤ prIdx.toNat then BitVec.ofNat 32 (n - 1) else prIdx).toNat < n := by
  split
  · rename_i hle
    have hlt := prIdx.isLt
    rw [BitVec.toNat_ofNat, Nat.mod_eq_of_lt (by omega)]
    omega
  · omega

/-- **The output** of a pointer of a class and of its section finds all elements. -/
theorem outputMemValue_ok (hs : s.Inv) (hu : s.opt.Unshared) (hr : s.opt.RefsUsable)
    (hp : s.opt.ObjPtr e d p dm pm) : ∃ s', s.outputMemValue e = .ok s' := by
  obtain ⟨en, he, hd, ht⟩ := hp.entry
  unfold Trainer.outputMemValue
  simp only [he, hd, Option.bind_some, hp.dynmem, Option.map_some, ht]
  by_cases hne : dm.vMaddr = []
  · rw [if_pos hne]
    exact ⟨s, rfl⟩
  · rw [if_neg hne]
    have hpos : 0 < dm.vMaddr.length := List.length_pos_of_ne_nil hne
    have hlt := shown_lt (s.prIdx d) hpos
    generalize (if dm.vMaddr.length ≤ (s.prIdx d).toNat then
      BitVec.ofNat 32 (dm.vMaddr.length - 1) else s.prIdx d) = idx at hlt
    obtain ⟨en₂, he₂, ho⟩ := hp.objs
    cases he.symm.trans he₂
    have hdims := hs.aligned.counts.values e en _ he ho
    rw [hp.numObjs] at hdims
    obtain ⟨s₁, h₁⟩ := display_ok (s := { s with prIdx := Function.update s.prIdx d idx }) he hdims
      hlt
    have hk := display_keeps h₁
    obtain ⟨hown, -⟩ := hr e d p dm pm hp hne
    obtain ⟨h2, h3, h4⟩ := (targetsAligned_iff hs.aligned).mpr hu e d p dm pm hp
    have hpr : s₁.prIdx = Function.update s.prIdx d idx := by
      unfold Trainer.display at h₁
      split at h₁
      · cases h₁
      · split at h₁ <;> cases h₁
        rfl
    obtain ⟨pm₁, hpm₁, hpeq⟩ := Pointwise.getElem?_of_map_eq hk.ptrmems hp.ptrmem
    obtain rfl : pm₁ = pm := congrArg (·.2) hpeq
    obtain ⟨dm₁, hdm₁, -⟩ := Pointwise.getElem? hk.dynmems.flip hp.dynmem
    have hdisp : ∃ s', s₁.outputPtrmemValues p = .ok s' := by
      unfold Trainer.outputPtrmemValues
      simp only [hpm₁, hown, Option.bind_some, hdm₁, Option.map_some, Option.elim_some, hpr,
        Function.update_self]
      rw [List.getElem?_eq_getElem (by omega), List.getElem?_eq_getElem (by omega)]
      dsimp only
      split
      · exact ⟨_, rfl⟩
      · split
        · rename_i hnone
          cases hnone
        · exact ⟨_, rfl⟩
        · refine displays_ok hlt fun t ht => ?_
          have hsec := (hs.activated.targets p pm₁ hp.ptrmem).2 t ht
          obtain ⟨ten, hten, hsec⟩ := Option.bind_eq_some_iff.mp hsec
          have hmem := (hs.linked.mem_cfg p pm₁ t hp.ptrmem).mpr ⟨ten, hten, hsec⟩
          obtain ⟨h5, h6, h7⟩ := h4 t hmem ten hten
          obtain ⟨ten₁, hten₁, heq⟩ := Pointwise.getElem?_of_map_eq hk.entries hten
          have hvecs : ten₁.vals.vecs = ten.vals.vecs := congrArg (·.2) heq
          have hdims := congrArg (fun x : List Value × List Value × List (Option (List UInt8)) =>
            (x.1.length, x.2.1.length, x.2.2.length)) hvecs
          refine ⟨ten₁, hten₁, hdims.trans ?_⟩
          simp [EntryVals.vecs, h5, h6, h7]
    obtain ⟨s', h'⟩ := hdisp
    refine ⟨s', ?_⟩
    rw [h₁]
    exact h'

end Output

/-! ## Runs -/

section Runs

variable {chunk : Nat} {s₀ s : Trainer} {is : List LoopInput}

/-- A cycle from the state of the main loop. -/
def Trainer.cycle (s : Trainer) (i : LoopInput) : ProcState := ⟨s.opt, i.target, 0, i.junk, []⟩

theorem run_inv_trainer (h : s₀.Fresh) (hact : s₀.Activated)
    (hrun : Run.run (Trainer.step chunk) s₀ is = .ok s) : s.Inv :=
  Run.run_inv (fun _ _ _ => step_inv_trainer) ⟨h.linked, h.aligned, hact⟩ hrun

/-- **Vectors of pointer sections.** In every state of every run, the sections that classes point to
have one element per object exactly if each has one pointer only. Then each phase does to the
elements what it does to the objects, a cycle changes the element of an object only where it follows
the pointer of this object, and, if the references are usable, all indices are in range. -/
theorem run_targets (h : s₀.Fresh) (hact : s₀.Activated)
    (hrun : Run.run (Trainer.step chunk) s₀ is = .ok s) :
    (s.opt.TargetsAligned ↔ s.opt.Unshared) ∧
    (s.opt.Unshared → ∀ i s', s.step chunk i = .ok s' → s'.opt.Unshared → s.PtrStep s') ∧
    (s.opt.Unshared → ∀ i p, processActCfg chunk s.cfgAct (s.cycle i) = .ok p →
      (s.cycle i).Describes p) ∧
    (s.opt.Unshared → s.opt.RefsUsable →
      (∀ i p, Steps (Allowed s.cfgAct s.opt) (s.cycle i) p → p.opt.InRange) ∧
      ∀ e d p dm pm, s.opt.ObjPtr e d p dm pm → ∃ s', s.outputMemValue e = .ok s') := by
  have hs := run_inv_trainer h hact hrun
  refine ⟨targetsAligned_iff hs.aligned, fun hu i s' hstep hu' => step_ptr hstep hs hu hu',
    fun hu i p hp => ?_, fun hu hr => ⟨fun i p hp => ?_, fun e d p dm pm hp => ?_⟩⟩
  · exact steps_describes hs hu rfl (processActCfg_steps hp)
  · exact cycle_inRange hs.linked hs.aligned hu hr hp
  · exact outputMemValue_ok hs hu hr hp

end Runs

/-- A pointer of the first class to the first section. -/
def CfgEntry.objPtr : CfgEntry := { (default : CfgEntry) with
  type := { (default : VType) with size := 64 }
  dynval := .ptrAlways
  dynmem := some 0
  cache := some ⟨.dynmem 0, 0⟩
  ptrtgt := some 0 }

/-- A byte in the first section. -/
def CfgEntry.targetByte : CfgEntry := { (default : CfgEntry) with
  type := { (default : VType) with size := 8 }
  dynval := .watch
  cache := some ⟨.ptrmem 0, 0⟩
  ptrmem := some 0 }

/-- A class with a pointer. -/
def CfgMem.onePointer : CfgMem where
  entries := [.objPtr, .targetByte]
  dynmems := [{ (default : DynMemEntry) with memSize := 8, codeAddr := 0x400, cfgAct := [0] }]
  ptrmems := [{ (default : PtrMemEntry) with cfg := [1], cfgAct := [1], dynmem := some 0 }]

/-- A class with two pointers to one section. -/
def CfgMem.twoPointers : CfgMem where
  entries := [.objPtr, .objPtr, .targetByte]
  dynmems := [{ (default : DynMemEntry) with memSize := 8, codeAddr := 0x400, cfgAct := [0, 1] }]
  ptrmems := [{ (default : PtrMemEntry) with cfg := [2], cfgAct := [2], dynmem := some 0 }]

/-- A message in the first iteration of the main loop, and nothing else. -/
def LoopInput.oneMsg (mem : Ptr → UInt8) (msg : FifoMsg) (n : Nat) : List LoopInput :=
  .idle mem :: { idle mem with msgs := [msg] } :: List.replicate n (.idle mem)

/-- With two pointers in a class of one object, their section has two elements. -/
theorem run_targets_not_aligned : CfgMem.twoPointers.Loaded [0, 1] ∧
    ∃ s, Run.run (Trainer.step 8) (.start .twoPointers [0, 1])
      (LoopInput.oneMsg (fun _ => 0) (.malloc (HackMsg.allocMsg 0x20 8 0x400) [] 0) 14) = .ok s ∧
      s.phase = .process ∧ ¬ s.opt.TargetsAligned := by
  refine ⟨by decide, ?_⟩
  obtain ⟨s, hs, hview⟩ := Run.exists_ok_of_map (f := fun s : Trainer =>
    (s.phase, s.opt.entries[0]?.map fun en => (en.dynmem, en.ptrtgt),
      s.opt.dynmems.map (·.vMaddr.length), s.opt.ptrmems.map (·.vState.length)))
    (b := (.process, some (some 0, some 0), [1], [2]))
    (show (Run.run (Trainer.step 8) (.start .twoPointers [0, 1]) (LoopInput.oneMsg (fun _ => 0)
      (.malloc (HackMsg.allocMsg 0x20 8 0x400) [] 0) 14)).map _ = _ by decide +kernel)
  simp only [Prod.mk.injEq, Option.map_eq_some_iff] at hview
  obtain ⟨hphase, ⟨en, he, hd, ht⟩, hdms, hpms⟩ := hview
  obtain ⟨dm, hdm, hone⟩ := List.map_eq_singleton_iff.mp hdms
  obtain ⟨pm, hpm, htwo⟩ := List.map_eq_singleton_iff.mp hpms
  refine ⟨s, hs, hphase, fun hal => ?_⟩
  obtain ⟨hlen, -⟩ := hal 0 0 0 dm pm ⟨⟨en, he, hd, ht⟩, by simp [hdm], by simp [hpm]⟩
  omega

theorem unshared_of_tgts {cfg : CfgMem} (h : cfg.entries.map (·.ptrtgt) = [some 0, none])
    (hst : cfg.statics 0 = 0) : cfg.Unshared := by
  have htgt : ∀ e, cfg.tgt e = ([some 0, none][e]?).join := by
    intro e
    rw [← h, List.getElem?_map]
    unfold CfgMem.tgt
    cases cfg.entries[e]? <;> rfl
  have hzero : ∀ e p, cfg.tgt e = some p → e = 0 ∧ p = 0 := by
    intro e p he
    rw [htgt] at he
    match e with
    | 0 => exact ⟨rfl, (Option.some.inj he).symm⟩
    | 1 => cases he
    | e + 2 => cases he
  intro e d p dm pm hp
  obtain ⟨rfl, rfl⟩ := hzero e p hp.tgt
  exact ⟨hst, fun e' hne ht => absurd (hzero e' 0 ht).1 hne⟩

theorem run_targets_example : ∃ s, Run.run (Trainer.step 8) (.start .onePointer [0])
    (LoopInput.oneMsg (fun _ => 0) (.malloc (HackMsg.allocMsg 0x20 8 0x400) [] 0) 14) = .ok s ∧
      s.opt.Unshared ∧ s.opt.TargetsAligned := by
  obtain ⟨s, hs, hview⟩ := Run.exists_ok_of_map (f := fun s : Trainer =>
      (s.opt.entries.map (·.ptrtgt), s.opt.statics 0)) (b := ([some 0, none], 0))
    (show (Run.run (Trainer.step 8) (.start .onePointer [0]) (LoopInput.oneMsg (fun _ => 0)
      (.malloc (HackMsg.allocMsg 0x20 8 0x400) [] 0) 14)).map _ = _ by decide +kernel)
  have hu := unshared_of_tgts (congrArg (·.1) hview) (congrArg (·.2) hview)
  have hl : CfgMem.onePointer.Loaded [0] := by decide
  exact ⟨s, hs, hu, (run_targets hl.fresh hl.activated hs).1.mpr hu⟩

end UgTrain
