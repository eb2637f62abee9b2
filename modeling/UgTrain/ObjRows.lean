import UgTrain.Aligned
import UgTrain.FifoLemmas

/-!
# Objects and their values over whole runs

`rows e` are the objects of the class of an entry, each with its values. Over the phases of the
main loop (`run_aligned`) the vectors stay aligned, and the rows change as the objects do:

* `rows_freeDynmem`: the rows of the marked objects are removed.
* `rows_newObjects`: each new object has a row behind the others.
* `rows_of_keeps`: all other phases keep the rows in place; they may mark objects. Only the processing
  changes values.
-/

namespace UgTrain

open CLib

/-! ## Growing classes -/

/-- A class with more objects behind the others. -/
structure DynMemEntry.Grows (dm dm' : DynMemEntry) : Prop where
  objs : ∃ (ms : List Ptr) (ss : List SizeT), ms.length = ss.length ∧
    dm'.vMaddr = dm.vMaddr ++ ms ∧ dm'.vMsize = dm.vMsize ++ ss
  numFreed : dm'.numFreed = dm.numFreed
  cfgAct : dm'.cfgAct = dm.cfgAct

section Growing

variable {dm dm' dm'' : DynMemEntry} {dynmems dynmems' : List DynMemEntry}

@[refl] theorem DynMemEntry.Grows.refl (dm : DynMemEntry) : dm.Grows dm :=
  ⟨⟨[], [], rfl, (List.append_nil _).symm, (List.append_nil _).symm⟩, rfl, rfl⟩

theorem DynMemEntry.Grows.trans (h : dm.Grows dm') (h' : dm'.Grows dm'') : dm.Grows dm'' := by
  obtain ⟨ms, ss, hlen, hm, hs⟩ := h.objs
  obtain ⟨ms', ss', hlen', hm', hs'⟩ := h'.objs
  refine ⟨⟨ms ++ ms', ss ++ ss', ?_, ?_, ?_⟩, h'.numFreed.trans h.numFreed,
    h'.cfgAct.trans h.cfgAct⟩
  · rw [List.length_append, List.length_append, hlen, hlen']
  · rw [hm', hm, List.append_assoc]
  · rw [hs', hs, List.append_assoc]

/-- **`alloc_dynmem_addr`** appends to one class, or does nothing. -/
theorem allocDynmemAddr_grows (cfg : List CfgEntry) (memAddr : Ptr) (memSize : SizeT)
    (codeAddr : Ptr) (dynmems : List DynMemEntry) :
    List.Forall₂ DynMemEntry.Grows dynmems
      (allocDynmemAddr cfg memAddr memSize codeAddr dynmems) := by
  unfold allocDynmemAddr
  split
  · rename_i d dm hf
    obtain ⟨hd, -, -⟩ := findDynmem_eq_some hf
    refine Pointwise.set .refl fun dm' hd' => ?_
    cases hd.symm.trans hd'
    exact ⟨⟨[memAddr], [memSize], rfl, rfl, rfl⟩, rfl, rfl⟩
  · exact Pointwise.refl .refl _

/-- **`process_mallocs`** appends to the classes, whatever is in the queue. -/
theorem processMallocs_grows {cfg : List CfgEntry} {pmask : PMask} {mq mq' : MQueue}
    (h : processMallocs (allocMf cfg) pmask mq dynmems = .ok (mq', dynmems')) :
    List.Forall₂ DynMemEntry.Grows dynmems dynmems' := by
  obtain ⟨res, hres, h⟩ := Run.bind_eq_ok.mp h
  obtain ⟨data, -, h⟩ := Run.bind_eq_ok.mp h
  cases h
  refine parseLoop_acc (Pointwise.refl .refl) (fun _ _ _ => Pointwise.trans fun _ _ _ => .trans)
    (fun call a a' hc => ?_) hres
  cases call with
  | mf pp memAddr memSize codeOffs codeAddr stackOffs =>
    cases hc
    exact allocDynmemAddr_grows _ _ _ _ _
  | ff | lf | sf | skip =>
    cases hc
    exact Pointwise.refl .refl _

end Growing

/-! ## New objects -/

section NewObjects

variable {cfg : CfgMem} {dynmems : List DynMemEntry} {s s' : Trainer} {e : Nat} {en : CfgEntry}

theorem objs_grows (hg : List.Forall₂ DynMemEntry.Grows cfg.dynmems dynmems) {mvec : List Ptr}
    (ho : CfgMem.objs { cfg with dynmems := dynmems } en = some mvec) :
    ∃ mvec' ms, cfg.objs en = some mvec' ∧ mvec = mvec' ++ ms := by
  obtain ⟨dm, hdm, rfl⟩ := Option.map_eq_some_iff.mp ho
  obtain ⟨d, hd, hdm⟩ := Option.bind_eq_some_iff.mp hdm
  obtain ⟨dm', hdm', hgr⟩ := Pointwise.getElem? hg hdm
  obtain ⟨ms, -, -, hm, -⟩ := hgr.objs
  exact ⟨dm'.vMaddr, ms, by simp [CfgMem.objs, hd, hdm'], hm⟩

/-- The entries have elements for the objects that were there before. -/
theorem CfgMem.Counts.of_grows {cnt : Nat → Nat} (h : cfg.Counts cnt)
    (hg : List.Forall₂ DynMemEntry.Grows cfg.dynmems dynmems) :
    CfgMem.Counts { cfg with dynmems := dynmems } cnt := by
  refine ⟨fun e en mvec he ho => ?_, h.targets, h.states⟩
  obtain ⟨mvec', -, ho', -⟩ := objs_grows hg ho
  exact h.values e en mvec' he ho'

theorem numObjs_grows (hg : List.Forall₂ DynMemEntry.Grows cfg.dynmems dynmems) (e : Nat) :
    cfg.numObjs e ≤ CfgMem.numObjs { cfg with dynmems := dynmems } e := by
  unfold CfgMem.numObjs
  cases he : cfg.entries[e]? with
  | none => exact Nat.le_refl 0
  | some en =>
    rw [Option.bind_some, Option.bind_some]
    cases ho : cfg.objs en with
    | none => exact Nat.zero_le _
    | some mvec =>
      obtain ⟨dm, hdm, rfl⟩ := Option.map_eq_some_iff.mp ho
      obtain ⟨d, hd, hdm⟩ := Option.bind_eq_some_iff.mp hdm
      obtain ⟨dm', hdm', hgr⟩ := Pointwise.getElem? hg.flip hdm
      obtain ⟨ms, -, -, hm, -⟩ := DynMemEntry.Grows.objs hgr
      have ho' : CfgMem.objs { cfg with dynmems := dynmems } en = some dm'.vMaddr := by
        simp [CfgMem.objs, hd, hdm']
      rw [ho', Option.map_some, Option.map_some, hm, Option.getD_some, Option.getD_some,
        List.length_append]
      exact Nat.le_add_right _ _

/-- **`alloc_dynmem` behind `process_mallocs`** keeps the alignment. -/
theorem aligned_allocDynmem (hl : cfg.Linked) (h : cfg.Aligned)
    (hg : List.Forall₂ DynMemEntry.Grows cfg.dynmems dynmems) :
    (allocDynmem { cfg with dynmems := dynmems }).Aligned := by
  have hl' : CfgMem.Linked { cfg with dynmems := dynmems } := ⟨hl.nodup, hl.mem_cfg, hl.classes⟩
  have hdm : (allocDynmem { cfg with dynmems := dynmems }).dynmems = dynmems :=
    (allocDynmem_rounds hl'.sections).same.dynmems
  refine ⟨fun dm hm => ?_, fun dm hm => ?_,
    counts_allocDynmem hl' (h.counts.of_grows hg) (numObjs_grows hg)⟩
  · rw [hdm] at hm
    obtain ⟨d, hd⟩ := List.mem_iff_getElem?.mp hm
    obtain ⟨dm', hd', hgr⟩ := Pointwise.getElem? hg hd
    obtain ⟨ms, ss, hlen, hm', hs'⟩ := hgr.objs
    have ha : dm'.vMaddr.length = dm'.vMsize.length := h.classes dm' (List.mem_of_getElem? hd')
    rw [DynMemEntry.Aligned, hm', hs', List.length_append, List.length_append, ha, hlen]
  · rw [hdm] at hm
    obtain ⟨d, hd⟩ := List.mem_iff_getElem?.mp hm
    obtain ⟨dm', hd', hgr⟩ := Pointwise.getElem? hg hd
    obtain ⟨ms, -, -, hm', -⟩ := hgr.objs
    rw [hgr.numFreed, hm', List.count_append]
    exact (h.freed dm' (List.mem_of_getElem? hd')).trans (Nat.le_add_right _ _)

/-- What `process_mallocs` and `alloc_dynmem` do to the config. -/
theorem newObjects_eq (h : s.newObjects = .ok s') :
    ∃ dynmems, List.Forall₂ DynMemEntry.Grows s.opt.dynmems dynmems ∧
      s'.opt.toCfgMem = allocDynmem { s.opt.toCfgMem with dynmems := dynmems } := by
  obtain ⟨⟨mq, dynmems⟩, hp, h⟩ := Run.bind_eq_ok.mp h
  cases h
  refine ⟨dynmems.map fun dm => { dm with numAlloc := 0 }, ?_, rfl⟩
  refine Pointwise.trans (fun _ _ _ => .trans) (processMallocs_grows hp) (Pointwise.map ?_ _)
  exact fun dm => ⟨⟨[], [], rfl, (List.append_nil _).symm, (List.append_nil _).symm⟩, rfl, rfl⟩

end NewObjects

/-! ## Rows -/

/-- An object as an entry of its class has it: its address, its size, its old value, its wish value
and its text. -/
abbrev ObjRow := Ptr × SizeT × Value × Value × Option (List UInt8)

/-- The objects of the class of an entry. -/
def CfgMem.rows (cfg : CfgMem) (e : Nat) : List ObjRow :=
  match cfg.entries[e]? with
  | none => []
  | some en =>
    match en.dynmem.bind (cfg.dynmems[·]?) with
    | none => []
    | some dm =>
      dm.vMaddr.zip (dm.vMsize.zip (en.vals.vOldval.zip (en.vals.vValue.zip en.vals.vCstr)))

/-- The same object, or marked. -/
def ObjRow.Stays (r r' : ObjRow) : Prop :=
  (r'.1 = r.1 ∨ r'.1 = 0) ∧ (r'.2.1 = r.2.1 ∨ r'.2.1 = 0)

/-- The same object with the same values, or marked. -/
def ObjRow.Kept (r r' : ObjRow) : Prop := r.Stays r' ∧ r'.2.2 = r.2.2

section Rows

variable {cfg cfg' : CfgMem} {e : Nat} {en : CfgEntry} {dm : DynMemEntry} {α β : Type}
  {mvec : List Ptr} {l : List α} {l' : List β}

theorem rows_none (he : cfg.entries[e]? = none) : cfg.rows e = [] := by
  simp [CfgMem.rows, he]

theorem rows_no_class (he : cfg.entries[e]? = some en)
    (hd : en.dynmem.bind (cfg.dynmems[·]?) = none) : cfg.rows e = [] := by
  simp [CfgMem.rows, he, hd]

theorem rows_eq (he : cfg.entries[e]? = some en)
    (hd : en.dynmem.bind (cfg.dynmems[·]?) = some dm) : cfg.rows e =
      dm.vMaddr.zip (dm.vMsize.zip (en.vals.vOldval.zip (en.vals.vValue.zip en.vals.vCstr))) := by
  simp [CfgMem.rows, he, hd]

theorem keepObjs_zip (h : l.length = mvec.length) (h' : l'.length = mvec.length) :
    keepObjs mvec (l.zip l') = (keepObjs mvec l).zip (keepObjs mvec l') := by
  induction mvec generalizing l l' with
  | nil => simp [keepObjs_nil]
  | cons m mvec ih =>
    obtain ⟨x, l, rfl⟩ := List.exists_cons_of_length_eq_add_one h
    obtain ⟨y, l', rfl⟩ := List.exists_cons_of_length_eq_add_one h'
    have ih := @ih l l' (by simpa using h) (by simpa using h')
    rw [List.zip_cons_cons, keepObjs_cons, keepObjs_cons, keepObjs_cons, ih]
    split <;> rfl

theorem filter_zip (h : l.length = mvec.length) :
    (mvec.zip l).filter (·.1 ≠ 0) = (mvec.filter (· ≠ 0)).zip (keepObjs mvec l) := by
  induction mvec generalizing l with
  | nil => simp
  | cons m mvec ih =>
    obtain ⟨x, l, rfl⟩ := List.exists_cons_of_length_eq_add_one h
    have ih := ih (l := l) (by simpa using h)
    rw [List.zip_cons_cons, keepObjs_cons, List.filter_cons, List.filter_cons, ih]
    by_cases hm : m = 0#64 <;> simp [hm]

/-- The same values for all new objects. -/
theorem zip_replicate_length (ms : List α) (y : β) :
    ms.zip (List.replicate ms.length y) = ms.map fun m => (m, y) := by
  induction ms with
  | nil => rfl
  | cons m ms ih => rw [List.length_cons, List.replicate_succ, List.zip_cons_cons, ih, List.map_cons]

/-- **`free_dynmem`** removes the objects with the address 0, with their values, and keeps all
others in their order. -/
theorem rows_freeDynmem (hl : cfg.Linked) (h : cfg.Aligned) (e : Nat) :
    (freeDynmem cfg).rows e = (cfg.rows e).filter (·.1 ≠ 0) := by
  have hr := freedVals_rounds hl
  have he' := hr.entry e
  rw [← freeDynmem_entries] at he'
  cases he : cfg.entries[e]? with
  | none =>
    rw [he] at he'
    rw [rows_none he, rows_none he']
    rfl
  | some en =>
    rw [he] at he'
    cases hd : en.dynmem.bind (cfg.dynmems[·]?) with
    | none =>
      rw [rows_no_class he hd, rows_no_class he']
      · rfl
      · rw [vecOps_dynmem]
        rw [Option.bind_eq_none_iff] at hd ⊢
        intro d hdd
        rw [freeDynmem_dynmem hl h.classes, hd d hdd]
        rfl
    | some dm =>
      obtain ⟨d, hdd, hdm⟩ := Option.bind_eq_some_iff.mp hd
      have hm : dm ∈ cfg.dynmems := List.mem_of_getElem? hdm
      have ha : dm.vMaddr.length = dm.vMsize.length := h.classes dm hm
      have ho : cfg.objs en = some dm.vMaddr := by simp [CfgMem.objs, hdd, hdm]
      have hrefs : Refs cfg.entries d := List.mem_map.mpr ⟨en, List.mem_of_getElem? he, hdd⟩
      have hd' : (en.vecOps (cfg.entryOps freeOps cfg.entries.length e)).dynmem.bind
          ((freeDynmem cfg).dynmems[·]?) = some dm.eraseObjs := by
        rw [vecOps_dynmem, hdd, Option.bind_some, freeDynmem_dynmem hl h.classes, hdm,
          Option.map_some, if_pos hrefs]
      -- All vectors have an element per object.
      have hdims := h.counts.values e en _ he ho
      rw [numObjs_of_objs he ho] at hdims
      have h1 : en.vals.vOldval.length = dm.vMaddr.length := congrArg (·.1) hdims
      have h2 : en.vals.vValue.length = dm.vMaddr.length := congrArg (·.2.1) hdims
      have h3 : en.vals.vCstr.length = dm.vMaddr.length := congrArg (·.2.2) hdims
      have hops : cfg.entryOps freeOps cfg.entries.length e =
          (freeMarks 0 dm.vMaddr.length dm.vMaddr).map some := by
        rw [hl.entryOps_class he (isSome_of_objs ho), opsOf_of_objs h.counts he ho,
          numObjs_of_objs he ho]
        rfl
      have hv : ∀ {γ : Type} (x : γ) (l : List γ), l.length = dm.vMaddr.length →
          vecOps x (cfg.entryOps freeOps cfg.entries.length e) l = keepObjs dm.vMaddr l := by
        intro γ x l hlen
        rw [hops, ← hlen]
        exact vecOps_free hlen.le
      rw [rows_eq he hd, rows_eq he' hd', DynMemEntry.eraseObjs_eq (h.classes dm hm),
        CfgEntry.vecOps_eq]
      simp only [hv _ _ h1, hv _ _ h2, hv _ _ h3]
      rw [← keepObjs_zip h2 h3, ← keepObjs_zip h1 (by simp [h2, h3]),
        ← keepObjs_zip ha.symm (by simp [h1, h2, h3]), ← filter_zip (by simp [ha.symm, h1, h2, h3])]

/-- **`alloc_dynmem`** gives each new object a row behind the others. -/
theorem rows_allocDynmem {dynmems : List DynMemEntry} (hl : cfg.Linked) (h : cfg.Aligned)
    (hg : List.Forall₂ DynMemEntry.Grows cfg.dynmems dynmems) (he : cfg.entries[e]? = some en) :
    ∃ objs : List (Ptr × SizeT), (allocDynmem { cfg with dynmems := dynmems }).rows e =
      cfg.rows e ++ objs.map fun o => (o.1, o.2, 0, en.vals.value, en.newCstr) := by
  have hl' : CfgMem.Linked { cfg with dynmems := dynmems } := ⟨hl.nodup, hl.mem_cfg, hl.classes⟩
  have hr := allocDynmem_rounds hl'.sections
  have he' := hr.entry e
  rw [show CfgMem.entries { cfg with dynmems := dynmems } = cfg.entries from rfl, he,
    Option.map_some] at he'
  cases hd : en.dynmem.bind (cfg.dynmems[·]?) with
  | none =>
    refine ⟨[], ?_⟩
    rw [rows_no_class he hd, rows_no_class he']
    · rfl
    · rw [vecOps_dynmem, hr.same.dynmems]
      rw [Option.bind_eq_none_iff] at hd ⊢
      intro d hdd
      have := hd d hdd
      rw [List.getElem?_eq_none_iff] at this ⊢
      rw [← hg.length_eq]
      exact this
  | some dm =>
    obtain ⟨d, hdd, hdm⟩ := Option.bind_eq_some_iff.mp hd
    obtain ⟨dm', hdm', hgr⟩ := Pointwise.getElem? hg.flip hdm
    obtain ⟨ms, ss, hlen, hm, hs⟩ := DynMemEntry.Grows.objs hgr
    have ho : cfg.objs en = some dm.vMaddr := by simp [CfgMem.objs, hdd, hdm]
    have ho' : CfgMem.objs { cfg with dynmems := dynmems } en = some dm'.vMaddr := by
      simp [CfgMem.objs, hdd, hdm']
    have hd' : (en.vecOps (CfgMem.entryOps allocOps { cfg with dynmems := dynmems }
        cfg.entries.length e)).dynmem.bind
        ((allocDynmem { cfg with dynmems := dynmems }).dynmems[·]?) = some dm' := by
      rw [vecOps_dynmem, hr.same.dynmems, hdd]
      exact hdm'
    have hdims := h.counts.values e en _ he ho
    rw [numObjs_of_objs he ho] at hdims
    have h1 : en.vals.vOldval.length = dm.vMaddr.length := congrArg (·.1) hdims
    have h2 : en.vals.vValue.length = dm.vMaddr.length := congrArg (·.2.1) hdims
    have h3 : en.vals.vCstr.length = dm.vMaddr.length := congrArg (·.2.2) hdims
    have hops : CfgMem.entryOps allocOps { cfg with dynmems := dynmems } cfg.entries.length e =
        List.replicate ms.length none := by
      have := hl'.entryOps_class (f := allocOps) he (isSome_of_objs ho)
      rw [show CfgMem.entries { cfg with dynmems := dynmems } = cfg.entries from rfl] at this
      rw [this, opsOf_of_objs (h.counts.of_grows hg) he ho', numObjs_of_objs he ho, allocOps, hm,
        List.length_append, Nat.add_sub_cancel_left]
    have ha : dm.vMaddr.length = dm.vMsize.length := h.classes dm (List.mem_of_getElem? hdm)
    refine ⟨ms.zip ss, ?_⟩
    rw [rows_eq he hd, rows_eq he' hd', hm, hs, CfgEntry.vecOps_eq]
    simp only [hops, vecOps_replicate]
    rw [List.zip_append (by omega), List.zip_append (by simp; omega),
      List.zip_append (by simp; omega), List.zip_append (by simp; omega), List.zip_replicate',
      List.zip_replicate', hlen, zip_replicate_length, List.zip_map_right]
    rfl

/-- The objects stay in place, and so does what `R` relates of their values. -/
theorem rows_of_forall₂ {β γ δ : Type} {φ : EntryVals → β} {χ : DynMemEntry → δ}
    {ψ : PtrMemEntry → γ} (hk : cfg.Keeps φ χ ψ cfg') (R : ObjRow → ObjRow → Prop)
    (hR : ∀ en en' : CfgEntry, φ en'.vals = φ en.vals →
      ∀ m m' s s', List.Forall₂ (fun a a' => a' = a ∨ a' = 0) m m' →
      List.Forall₂ (fun a a' => a' = a ∨ a' = 0) s s' →
      List.Forall₂ R (m.zip (s.zip (en.vals.vOldval.zip (en.vals.vValue.zip en.vals.vCstr))))
        (m'.zip (s'.zip (en'.vals.vOldval.zip (en'.vals.vValue.zip en'.vals.vCstr)))))
    (e : Nat) : List.Forall₂ R (cfg.rows e) (cfg'.rows e) := by
  cases he' : cfg'.entries[e]? with
  | none =>
    have he := he'
    rw [List.getElem?_eq_none_iff, hk.length, ← List.getElem?_eq_none_iff] at he
    rw [rows_none he, rows_none he']
    exact .nil
  | some en' =>
    obtain ⟨en, he, hf, hv⟩ := hk.entry he'
    have hd : en'.dynmem = en.dynmem := (fixed_fields hf).1.symm
    cases hdm' : en'.dynmem.bind (cfg'.dynmems[·]?) with
    | none =>
      have hdm : en.dynmem.bind (cfg.dynmems[·]?) = none := by
        rw [Option.bind_eq_none_iff] at hdm' ⊢
        intro d hdd
        have := hdm' d (hd.trans hdd)
        rw [List.getElem?_eq_none_iff] at this ⊢
        rw [hk.dynmems.length_eq]
        exact this
      rw [rows_no_class he hdm, rows_no_class he' hdm']
      exact .nil
    | some dm' =>
      obtain ⟨d, hdd, hdm'⟩ := Option.bind_eq_some_iff.mp hdm'
      obtain ⟨dm, hdm, hkd⟩ := hk.dynmem hdm'
      rw [rows_eq he (by rw [← hd, hdd]; exact hdm), rows_eq he' (by rw [hdd]; exact hdm')]
      exact hR en en' hv.symm _ _ _ _ hkd.vMaddr hkd.vMsize

/-- **The other phases** keep the objects and their values in place. -/
theorem rows_of_keeps {γ δ : Type} {χ : DynMemEntry → δ} {ψ : PtrMemEntry → γ}
    (hk : cfg.Keeps EntryVals.vecs χ ψ cfg')
    (e : Nat) : List.Forall₂ ObjRow.Kept (cfg.rows e) (cfg'.rows e) := by
  refine rows_of_forall₂ hk _ (fun en en' hv m m' s s' hm hs => ?_) e
  have h1 : en'.vals.vOldval = en.vals.vOldval := congrArg (·.1) hv
  have h2 : en'.vals.vValue = en.vals.vValue := congrArg (·.2.1) hv
  have h3 : en'.vals.vCstr = en.vals.vCstr := congrArg (·.2.2) hv
  rw [h1, h2, h3]
  have hrest := Pointwise.zip hm (Pointwise.zip hs (Pointwise.refl (R := Eq) (fun _ => rfl)
    (en.vals.vOldval.zip (en.vals.vValue.zip en.vals.vCstr))))
  exact hrest.imp fun r r' h => ⟨⟨h.1, h.2.1⟩, h.2.2.symm⟩

/-- **The processing** keeps the objects in place. -/
theorem rows_of_process {γ δ : Type} {χ : DynMemEntry → δ} {ψ : PtrMemEntry → γ}
    (hk : cfg.Keeps EntryVals.dims χ ψ cfg')
    (e : Nat) : List.Forall₂ ObjRow.Stays (cfg.rows e) (cfg'.rows e) := by
  refine rows_of_forall₂ hk _ (fun en en' hv m m' s s' hm hs => ?_) e
  have h1 : en'.vals.vOldval.length = en.vals.vOldval.length := congrArg (·.1) hv
  have h2 : en'.vals.vValue.length = en.vals.vValue.length := congrArg (·.2.1) hv
  have h3 : en'.vals.vCstr.length = en.vals.vCstr.length := congrArg (·.2.2) hv
  have hlen : (en.vals.vOldval.zip (en.vals.vValue.zip en.vals.vCstr)).length =
      (en'.vals.vOldval.zip (en'.vals.vValue.zip en'.vals.vCstr)).length := by
    simp [h1, h2, h3]
  exact (Pointwise.zip hm (Pointwise.zip hs (Pointwise.of_length hlen))).imp
    fun r r' h => ⟨h.1, h.2.1⟩

end Rows

/-! ## Runs -/

/-- What one phase does to the rows of an entry. -/
def Trainer.RowStep (s s' : Trainer) (e : Nat) : Prop :=
  let rows := s.opt.rows e
  let rows' := s'.opt.rows e
  match s.phase with
  | .free => rows' = if s.cfgAct = [] ∨ s.pureStatmem then rows else rows.filter (·.1 ≠ 0)
  | .freeKicked => rows' = if s.pureStatmem then rows else rows.filter (·.1 ≠ 0)
  | .mallocs => ∀ en, s.opt.entries[e]? = some en → ∃ objs : List (Ptr × SizeT),
      rows' = rows ++ objs.map fun o => (o.1, o.2, 0, en.vals.value, en.newCstr)
  | .process => List.Forall₂ ObjRow.Stays rows rows'
  | _ => List.Forall₂ ObjRow.Kept rows rows'

/-- The config is loaded, and the game has no object yet. -/
structure Trainer.Fresh (s : Trainer) : Prop where
  phase : s.phase = .input
  linked : s.opt.Linked
  noObjs : s.opt.NoObjs
  numFreed : ∀ dm ∈ s.opt.dynmems, dm.numFreed = 0
  values : ∀ en ∈ s.opt.entries, en.dynmem.isSome ∨ en.ptrmem.isSome →
    en.vals.vecs = ([], [], [])
  states : ∀ (p : Nat) (pm : PtrMemEntry), s.opt.ptrmems[p]? = some pm →
    pm.dims = (s.opt.statics p, s.opt.statics p)

section Steps

variable {chunk : Nat} {s s' s₀ : Trainer} {i : LoopInput} {is : List LoopInput}

theorem Trainer.Fresh.aligned (h : s.Fresh) : s.opt.Aligned := by
  have hobjs : ∀ (en : CfgEntry) (mvec : List Ptr), s.opt.objs en = some mvec → mvec = [] := by
    intro en mvec ho
    obtain ⟨dm, hdm, rfl⟩ := Option.map_eq_some_iff.mp ho
    obtain ⟨d, -, hd⟩ := Option.bind_eq_some_iff.mp hdm
    exact (h.noObjs dm (List.mem_of_getElem? hd)).1
  have hnum : s.opt.numObjs = fun _ => 0 := by
    funext e
    unfold CfgMem.numObjs
    cases hb : s.opt.entries[e]?.bind s.opt.objs with
    | none => rfl
    | some mvec =>
      obtain ⟨en, -, ho⟩ := Option.bind_eq_some_iff.mp hb
      rw [hobjs en mvec ho]
      rfl
  have hsum : ∀ p k, s.opt.sumTo p (fun _ => 0) k = 0 := by
    intro p k
    simp [CfgMem.sumTo]
  have hdims : ∀ en : CfgEntry, en.vals.vecs = ([], [], []) → en.vals.dims = (0, 0, 0) := by
    intro en hv
    have h1 : en.vals.vOldval = [] := congrArg (·.1) hv
    have h2 : en.vals.vValue = [] := congrArg (·.2.1) hv
    have h3 : en.vals.vCstr = [] := congrArg (·.2.2) hv
    simp [EntryVals.dims, h1, h2, h3]
  refine ⟨fun dm hm => ?_, fun dm hm => ?_, ?_⟩
  · rw [DynMemEntry.Aligned, (h.noObjs dm hm).1, (h.noObjs dm hm).2]
  · rw [h.numFreed dm hm]
    exact Nat.zero_le _
  · rw [hnum]
    refine ⟨fun e en mvec he ho => ?_, fun p pm e en hp hm he => ?_, fun p pm hp => ?_⟩
    · exact hdims en (h.values en (List.mem_of_getElem? he) (.inl (isSome_of_objs ho)))
    · obtain ⟨en', he', hen⟩ := (h.linked.mem_cfg p pm e hp).mp hm
      cases he.symm.trans he'
      rw [hsum, hdims en (h.values en (List.mem_of_getElem? he) (.inr (by rw [hen]; rfl)))]
    · rw [hsum]
      exact h.states p pm hp

/-- The phases that neither add nor remove objects nor process values. -/
theorem step_keeps (h : s.step chunk i = .ok s')
    (hne : s.phase ≠ .free ∧ s.phase ≠ .process ∧ s.phase ≠ .freeKicked ∧ s.phase ≠ .mallocs) :
    s.opt.toCfgMem.Keeps EntryVals.vecs (fun _ => ()) PtrMemEntry.vecs s'.opt.toCfgMem ∧
      (s.phase ≠ .input →
        s.opt.toCfgMem.Keeps EntryVals.vecs DynMemEntry.cfgAct id s'.opt.toCfgMem) := by
  have hid : ∀ {cfg cfg' : CfgMem}, cfg.Keeps EntryVals.vecs DynMemEntry.cfgAct id cfg' →
      cfg.Keeps EntryVals.vecs (fun _ => ()) PtrMemEntry.vecs cfg' ∧
        (s.phase ≠ .input → cfg.Keeps EntryVals.vecs DynMemEntry.cfgAct id cfg') :=
    fun hk => ⟨hk.mono id (fun _ => ()) PtrMemEntry.vecs (fun _ => rfl) (fun _ => rfl)
      fun _ => rfl, fun _ => hk⟩
  have hid' : ∀ {cfg cfg' : CfgMem}, cfg.Keeps id DynMemEntry.cfgAct id cfg' →
      cfg.Keeps EntryVals.vecs (fun _ => ()) PtrMemEntry.vecs cfg' ∧
        (s.phase ≠ .input → cfg.Keeps EntryVals.vecs DynMemEntry.cfgAct id cfg') :=
    fun hk => hid (hk.mono EntryVals.vecs id id (fun _ => rfl) (fun _ => rfl) fun _ => rfl)
  unfold Trainer.step at h
  cases hp : s.phase with
  | input =>
    simp only [hp] at h
    cases h
    refine ⟨?_, fun h => absurd rfl h⟩
    cases i.key with
    | none => exact .refl _
    | some ch =>
      rw [Option.elim_some]
      split
      · exact (handleInputChar_keeps ch).mono EntryVals.vecs id id (fun _ => rfl) (fun _ => rfl)
          fun _ => rfl
      · exact .refl _
  | fifo =>
    simp only [hp] at h
    rw [← hp]
    refine hid' (afterFifo_keeps ?_ h)
    exact fun s => outputDynmemChanges_keeps s
  | attach | detach =>
    simp only [hp] at h
    cases h
    rw [← hp]
    refine hid ?_
    split <;> exact .refl _
  | fifoAgain =>
    simp only [hp] at h
    rw [← hp]
    refine hid' (afterFifo_keeps ?_ h)
    exact fun s => .refl _
  | late =>
    simp only [hp] at h
    obtain ⟨opt, ho, h⟩ := Run.bind_eq_ok.mp h
    cases h
    rw [← hp]
    exact hid' ((handleHeapChecks_keeps i.heap).trans (latePic_keeps ho))
  | output =>
    simp only [hp] at h
    obtain ⟨s₁, h₁, h⟩ := Run.bind_eq_ok.mp h
    cases h
    rw [← hp]
    have hk := outputMemValues_keeps h₁
    exact hid hk
  | stopped =>
    simp only [hp] at h
    cases h
    rw [← hp]
    exact hid (.refl _)
  | free => exact absurd hp hne.1
  | process => exact absurd hp hne.2.1
  | freeKicked => exact absurd hp hne.2.2.1
  | mallocs => exact absurd hp hne.2.2.2

/-- What the other phases do to the config. -/
theorem step_others (h : s.step chunk i = .ok s') :
    (s.phase = .process → s.opt.toCfgMem.Keeps EntryVals.dims DynMemEntry.cfgAct
      PtrMemEntry.actDims s'.opt.toCfgMem) ∧
    (s.phase = .free → s'.opt.toCfgMem =
      if s.cfgAct = [] ∨ s.pureStatmem then s.opt.toCfgMem else freeDynmem s.opt.toCfgMem) ∧
    (s.phase = .freeKicked → s'.opt.toCfgMem = if s.pureStatmem then s.opt.toCfgMem
      else freeDynmem s.outputDynmemChanges.opt.toCfgMem) ∧
    (s.phase = .mallocs → ∃ dynmems, List.Forall₂ DynMemEntry.Grows s.opt.dynmems dynmems ∧
      (s'.opt.toCfgMem = s.opt.toCfgMem ∨
        s'.opt.toCfgMem = allocDynmem { s.opt.toCfgMem with dynmems := dynmems })) := by
  unfold Trainer.step at h
  refine ⟨fun hp => ?_, fun hp => ?_, fun hp => ?_, fun hp => ?_⟩ <;> simp only [hp] at h
  · obtain ⟨p, hproc, h⟩ := Run.bind_eq_ok.mp h
    cases h
    exact process_keeps hproc
  · by_cases hact : s.cfgAct = []
    · rw [if_pos hact] at h
      cases h
      rw [if_pos (.inl hact)]
      rfl
    · rw [if_neg hact] at h
      split at h
      · rename_i hpure
        cases h
        rw [if_pos (.inr hpure)]
        rfl
      · rename_i hpure
        cases h
        rw [if_neg (by tauto)]
        rfl
  · split at h
    · rename_i hpure
      cases h
      rw [if_pos hpure]
      rfl
    · rename_i hpure
      cases h
      rw [if_neg hpure]
      rfl
  · split at h
    · cases h
      exact ⟨s.opt.dynmems, Pointwise.refl .refl _, .inl rfl⟩
    · obtain ⟨s₁, h₁, h⟩ := Run.bind_eq_ok.mp h
      cases h
      obtain ⟨dynmems, hg, heq⟩ := newObjects_eq h₁
      exact ⟨dynmems, hg, .inr heq⟩

/-- **Every phase** keeps the links and the alignment. -/
theorem step_aligned (h : s.step chunk i = .ok s') (hl : s.opt.Linked) (ha : s.opt.Aligned) :
    s'.opt.Linked ∧ s'.opt.Aligned := by
  obtain ⟨hproc, hfree, hkicked, hmallocs⟩ := step_others h
  have hkeeps : ∀ {cfg : CfgMem}, s.opt.toCfgMem.KeepsDims cfg → cfg.Linked ∧ cfg.Aligned :=
    fun hk => ⟨hl.of_keeps hk, ha.of_keeps hk⟩
  have hout : s.outputDynmemChanges.opt.Linked ∧ s.outputDynmemChanges.opt.Aligned := by
    exact hkeeps ((outputDynmemChanges_keeps s).toDims EntryVals.dims PtrMemEntry.dims
      (fun _ => rfl) fun _ => rfl)
  cases hp : s.phase with
  | process => exact hkeeps ((hproc hp).toDims id (·.2) (fun _ => rfl) fun _ => rfl)
  | free =>
    rw [hfree hp]
    split
    · exact ⟨hl, ha⟩
    · exact ⟨linked_freeDynmem hl, aligned_freeDynmem hl ha⟩
  | freeKicked =>
    rw [hkicked hp]
    split
    · exact ⟨hl, ha⟩
    · exact ⟨linked_freeDynmem hout.1, aligned_freeDynmem hout.1 hout.2⟩
  | mallocs =>
    rcases hmallocs hp with ⟨dynmems, hg, heq | heq⟩
    · rw [heq]
      exact ⟨hl, ha⟩
    · have hl' : CfgMem.Linked { s.opt.toCfgMem with dynmems := dynmems } :=
        ⟨hl.nodup, hl.mem_cfg, hl.classes⟩
      rw [heq]
      exact ⟨(allocDynmem_rounds hl'.sections).linked hl', aligned_allocDynmem hl ha hg⟩
  | input | fifo | attach | fifoAgain | detach | late | output | stopped =>
    obtain ⟨hk, -⟩ := step_keeps h (by simp [hp])
    exact hkeeps (hk.toDims (fun x => (x.1.length, x.2.1.length, x.2.2.length))
      (fun x => (x.1.length, x.2.length)) (fun _ => rfl) fun _ => rfl)

/-- **What every phase does to the objects of an entry.** -/
theorem step_rows (h : s.step chunk i = .ok s') (hl : s.opt.Linked) (ha : s.opt.Aligned)
    (e : Nat) : s.RowStep s' e := by
  obtain ⟨hproc, hfree, hkicked, hmallocs⟩ := step_others h
  unfold Trainer.RowStep
  cases hp : s.phase with
  | process => exact rows_of_process (hproc hp) e
  | free =>
    simp only [hfree hp]
    split
    · rfl
    · exact rows_freeDynmem hl ha e
  | freeKicked =>
    have hk := outputDynmemChanges_keeps s
    have hrows : s.outputDynmemChanges.opt.rows e = s.opt.rows e := by
      unfold CfgMem.rows
      cases he : s.opt.entries[e]? with
      | none => simp [Trainer.outputDynmemChanges, he]
      | some en =>
        cases hd : en.dynmem with
        | none => simp [Trainer.outputDynmemChanges, he, hd]
        | some d => cases hdm : s.opt.dynmems[d]? <;> simp [Trainer.outputDynmemChanges, he, hd, hdm]
    simp only [hkicked hp]
    split
    · rfl
    · rw [rows_freeDynmem (hl.of_keeps hk) (ha.of_keeps (hk.toDims EntryVals.dims PtrMemEntry.dims
        (fun _ => rfl) fun _ => rfl)) e, hrows]
  | mallocs =>
    show ∀ en, s.opt.entries[e]? = some en → ∃ objs : List (Ptr × SizeT),
      s'.opt.rows e = s.opt.rows e ++ objs.map fun o => (o.1, o.2, 0, en.vals.value, en.newCstr)
    intro en he
    rcases hmallocs hp with ⟨dynmems, hg, heq | heq⟩
    · exact ⟨[], by rw [heq]; simp⟩
    · rw [heq]
      exact rows_allocDynmem hl ha hg he
  | input | fifo | attach | fifoAgain | detach | late | output | stopped =>
    exact rows_of_keeps (step_keeps h (by simp [hp])).1 e

theorem run_inv (hl : s₀.opt.Linked) (ha : s₀.opt.Aligned)
    (h : Run.run (Trainer.step chunk) s₀ is = .ok s) : s.opt.Linked ∧ s.opt.Aligned :=
  Run.run_inv (P := fun s => s.opt.Linked ∧ s.opt.Aligned)
    (fun _ _ _ hs h => step_aligned h hs.1 hs.2) ⟨hl, ha⟩ h

/-- **Vectors per object.** In every state of every run the vectors of an entry of a class have one
element per object, in the order of the objects: whatever phase comes next keeps each object with its
values, or removes it as a whole. No more objects count as freed than are marked. -/
theorem run_aligned (h : s₀.Fresh) (hrun : Run.run (Trainer.step chunk) s₀ is = .ok s) :
    (∀ (e d : Nat) (en : CfgEntry) (dm : DynMemEntry), s.opt.entries[e]? = some en →
      en.dynmem = some d → s.opt.dynmems[d]? = some dm →
      en.vals.vOldval.length = dm.vMaddr.length ∧ en.vals.vValue.length = dm.vMaddr.length ∧
        en.vals.vCstr.length = dm.vMaddr.length ∧ dm.vMsize.length = dm.vMaddr.length) ∧
    (∀ dm ∈ s.opt.dynmems, dm.numFreed ≤ dm.vMaddr.count 0) ∧
    (∀ e, (freeDynmem s.opt.toCfgMem).rows e = (s.opt.rows e).filter (·.1 ≠ 0)) ∧
    ∀ i s', s.step chunk i = .ok s' → ∀ e, s.RowStep s' e := by
  obtain ⟨hl, ha⟩ := run_inv h.linked h.aligned hrun
  refine ⟨fun e d en dm he hd hdm => ?_, ha.freed, rows_freeDynmem hl ha,
    fun i s' hs => step_rows hs hl ha⟩
  have ho : s.opt.objs en = some dm.vMaddr := by simp [CfgMem.objs, hd, hdm]
  have hdims := ha.counts.values e en _ he ho
  rw [numObjs_of_objs he ho] at hdims
  exact ⟨congrArg (·.1) hdims, congrArg (·.2.1) hdims, congrArg (·.2.2) hdims,
    (ha.classes dm (List.mem_of_getElem? hdm)).symm⟩

end Steps

/-- The main loop at its start, for a config without libraries: each list of caches has one cache, of
eight bytes. -/
def Trainer.start (cfg : CfgMem) (cfgAct : List Nat) : Trainer where
  opt := { cfg with
    libs := []
    dumps := []
    caches := fun _ => [⟨0, ptrMax, List.replicate 8 0, false⟩]
    valOnStack := false
    stackEnd := 0
    codeOffs := 0 }
  cfgAct := cfgAct
  cfgpMap := fun _ => []
  prIdx := fun _ => 0
  heapChecks := false
  pureStatmem := false
  mq := .empty
  phase := .input
  events := []

/-- Nothing comes from outside, and each byte of the game is `mem` of its address. -/
def LoopInput.idle (mem : Ptr → UInt8) : LoopInput where
  key := none
  msgs := []
  running := true
  attached := true
  target := ⟨mem, fun _ _ => true, fun _ _ => true⟩
  junk := 0
  heap := (0, 0)
  rlist := []
  printed := 0

/-- A byte of a class, which is watched. -/
def CfgEntry.objByte (d : Nat) : CfgEntry := { (default : CfgEntry) with
  type := { (default : VType) with size := 8 }
  dynval := .watch
  dynmem := some d
  cache := some ⟨.dynmem d, 0⟩ }

/-- A class with one byte. -/
def CfgMem.oneByte : CfgMem where
  entries := [.objByte 0]
  dynmems := [{ (default : DynMemEntry) with memSize := 8, codeAddr := 0x400, cfgAct := [0] }]
  ptrmems := []

theorem oneByte_fresh : (Trainer.start .oneByte [0]).Fresh := by
  have hdm : ∀ dm ∈ CfgMem.oneByte.dynmems, dm.vMaddr = [] ∧ dm.vMsize = [] ∧ dm.numFreed = 0 := by
    simp [CfgMem.oneByte, default, instInhabitedDynMemEntry.default]
  refine ⟨rfl, .of_sections rfl ?_, fun dm hm => ⟨(hdm dm hm).1, (hdm dm hm).2.1⟩,
    fun dm hm => (hdm dm hm).2.2, ?_, ?_⟩
  · show ∀ en ∈ CfgMem.oneByte.entries, _
    simp [CfgMem.oneByte, CfgEntry.objByte, default, instInhabitedCfgEntry.default]
  · show ∀ en ∈ CfgMem.oneByte.entries, _
    simp [CfgMem.oneByte, CfgEntry.objByte, default, instInhabitedCfgEntry.default,
      instInhabitedEntryVals.default, EntryVals.vecs]
  · intro p pm hp
    cases hp

/-- Two objects are allocated and shown in a cycle, then the first one is freed. -/
def LoopInput.freeFirst (mem : Ptr → UInt8) : List LoopInput :=
  let alloc := fun addr => FifoMsg.malloc (HackMsg.allocMsg addr 8 0x400) [] 0
  .idle mem :: { idle mem with msgs := [alloc 0x20, alloc 0x40] } :: List.replicate 21 (.idle mem) ++
    [{ idle mem with msgs := [.free 0x20 (by decide)] }]

/-- The object that is left keeps the value that was read for it. -/
theorem run_aligned_example : ∃ s, Run.run (Trainer.step 8) (.start .oneByte [0])
    (LoopInput.freeFirst fun a => a.toNat.toUInt8) = .ok s ∧
      (s.opt.rows 0).map (fun r => (r.1, r.2.2.1)) = [(0, 0x20), (0x40, 0x40)] ∧
      ((freeDynmem s.opt.toCfgMem).rows 0).map (fun r => (r.1, r.2.2.1)) = [(0x40, 0x40)] := by
  obtain ⟨s, hs, hrows⟩ := Run.exists_ok_of_map
    (f := fun s : Trainer => (s.opt.rows 0).map fun r => (r.1, r.2.2.1))
    (b := [(0, 0x20), (0x40, 0x40)])
    (show (Run.run (Trainer.step 8) (.start .oneByte [0])
      (LoopInput.freeFirst fun a => a.toNat.toUInt8)).map _ = _ by decide +kernel)
  refine ⟨s, hs, hrows, ?_⟩
  rw [(run_aligned oneByte_fresh hs).2.2.1 0]
  have hfilter := congrArg (List.filter fun r => decide (r.1 ≠ 0)) hrows
  rw [List.filter_map] at hfilter
  exact hfilter

end UgTrain
