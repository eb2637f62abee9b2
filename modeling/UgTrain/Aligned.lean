import UgTrain.Keeps
import UgTrain.ObjVals

/-!
# Vectors per object

`CfgMem.Aligned`: the vectors of an entry have one element per object of its class, those of a
pointer section one per object of each class entry that points to it. The phases of the main loop
that add or remove objects (`aligned_newObjects`, `aligned_freeDynmem`) keep this, and all others
do (`CfgMem.Aligned.of_keeps`).

* `CfgMem.Counts cfg cnt`: the vectors have `cnt e` elements for the entry `e`. Between
  `process_mallocs` and `alloc_dynmem` there are fewer than objects.
-/

namespace UgTrain

open CLib

/-! ## Links -/

/-- What the config parser gives for the links between entries, classes and sections. -/
structure CfgMem.Linked (cfg : CfgMem) : Prop where
  nodup : cfg.CfgNodup
  mem_cfg : ∀ (p : Nat) (pm : PtrMemEntry) (e : Nat), cfg.ptrmems[p]? = some pm →
    (e ∈ pm.cfg ↔ ∃ en, cfg.entries[e]? = some en ∧ en.ptrmem = some p)
  classes : ∀ (e : Nat) (en : CfgEntry), cfg.entries[e]? = some en → en.dynmem.isSome →
    en.ptrmem = none

section Links

variable {cfg cfg' : CfgMem} {e p : Nat} {en : CfgEntry} {pm : PtrMemEntry} {f : RoundOps}
  {β γ δ : Type} {φ : EntryVals → β} {χ : DynMemEntry → δ} {ψ : PtrMemEntry → γ}

theorem CfgMem.exists_of_mem_targets {tgt : Option Nat} (he : e ∈ cfg.targets tgt) :
    ∃ p pm, tgt = some p ∧ cfg.ptrmems[p]? = some pm ∧ e ∈ pm.cfg := by
  unfold CfgMem.targets at he
  cases hp : tgt.bind (cfg.ptrmems[·]?) with
  | none => simp [hp] at he
  | some pm =>
    obtain ⟨p, rfl, hpm⟩ := Option.bind_eq_some_iff.mp hp
    refine ⟨p, pm, rfl, hpm, ?_⟩
    simpa [hp] using he

theorem CfgMem.Linked.sections (h : cfg.Linked) : cfg.Sections := by
  refine ⟨h.nodup, fun e en he hd tgt hm => ?_⟩
  obtain ⟨p, pm, rfl, hpm, hmem⟩ := CfgMem.exists_of_mem_targets hm
  obtain ⟨en', he', hp⟩ := (h.mem_cfg p pm e hpm).mp hmem
  cases he.symm.trans he'
  rw [h.classes e en he hd] at hp
  cases hp

/-- An entry of a section is reached by what points to the section. -/
theorem CfgMem.Linked.reaches_target (h : cfg.Linked) (hp : cfg.ptrmems[p]? = some pm)
    (hm : e ∈ pm.cfg) {e' : Nat} (hne : cfg.opsOf f e' ≠ []) :
    cfg.Reaches e' (cfg.tgt e') e ↔ cfg.tgt e' = some p := by
  obtain ⟨en, he, hen⟩ := (h.mem_cfg p pm e hp).mp hm
  constructor
  · rintro (rfl | hmem)
    · refine absurd (opsOf_eq_nil he ?_) hne
      by_contra hd
      rw [h.classes _ en he (Option.isSome_iff_ne_none.mpr hd)] at hen
      cases hen
    · obtain ⟨p', pm', ht, hp', hm'⟩ := CfgMem.exists_of_mem_targets hmem
      obtain ⟨en', he', hen'⟩ := (h.mem_cfg p' pm' e hp').mp hm'
      cases he.symm.trans he'
      rw [hen] at hen'
      rw [ht, hen']
  · intro ht
    refine .inr ?_
    simp [CfgMem.targets, ht, hp, hm]

/-- The operations on an entry of a section are those on the section. -/
theorem CfgMem.Linked.entryOps_target (h : cfg.Linked) (hp : cfg.ptrmems[p]? = some pm)
    (hm : e ∈ pm.cfg) (k : Nat) : cfg.entryOps f k e = cfg.ptrmemOps f k p := by
  refine List.flatMap_congr fun e' _ => ?_
  by_cases hnil : cfg.opsOf f e' = []
  · rw [hnil, ite_self, ite_self]
  · simp only [h.reaches_target hp hm hnil]

/-- The operations on an entry of a class are those of its own round. -/
theorem CfgMem.Linked.entryOps_class (h : cfg.Linked) (he : cfg.entries[e]? = some en)
    (hd : en.dynmem.isSome) : cfg.entryOps f cfg.entries.length e = cfg.opsOf f e := by
  have hlt : e < cfg.entries.length := (List.getElem?_eq_some_iff.mp he).1
  have hr := reaches_class h.sections he hd
  have hsplit : ∀ n, cfg.entryOps f n e = if e < n then cfg.opsOf f e else [] := by
    intro n
    induction n with
    | zero => rfl
    | succ n ih =>
      have happ : cfg.entryOps f (n + 1) e = cfg.entryOps f n e ++
          if cfg.Reaches n (cfg.tgt n) e then cfg.opsOf f n else [] := by
        simp [CfgMem.entryOps, List.range_succ]
      rw [happ, ih]
      simp only [hr]
      by_cases hen : e = n
      · subst hen
        simp
      · have : e < n + 1 ↔ e < n := by omega
        simp [hen, this]
  rw [hsplit, if_pos hlt]

/-- As the config parser builds the sections: each has its entries in the order of the config. -/
theorem CfgMem.Linked.of_sections
    (h : cfg.ptrmems.map (·.cfg) = (List.range cfg.ptrmems.length).map fun p =>
      (List.range cfg.entries.length).filter fun e => cfg.entries[e]?.bind (·.ptrmem) = some p)
    (hc : ∀ en ∈ cfg.entries, en.dynmem.isSome → en.ptrmem = none) : cfg.Linked := by
  have hcfg : ∀ p pm, cfg.ptrmems[p]? = some pm → pm.cfg =
      (List.range cfg.entries.length).filter fun e => cfg.entries[e]?.bind (·.ptrmem) = some p := by
    intro p pm hp
    have hlt : p < cfg.ptrmems.length := (List.getElem?_eq_some_iff.mp hp).1
    have := congrArg (·[p]?) h
    simp only [List.getElem?_map, hp, Option.map_some, List.getElem?_range hlt,
      Option.some.injEq] at this
    exact this
  refine ⟨fun pm hpm => ?_, fun p pm e hp => ?_, fun e en he => hc en (List.mem_of_getElem? he)⟩
  · obtain ⟨p, hp⟩ := List.mem_iff_getElem?.mp hpm
    rw [hcfg p pm hp]
    exact List.nodup_range.filter _
  · rw [hcfg p pm hp, List.mem_filter, List.mem_range, decide_eq_true_eq, Option.bind_eq_some_iff]
    constructor
    · exact fun h => h.2
    · rintro ⟨en, he, hen⟩
      exact ⟨(List.getElem?_eq_some_iff.mp he).1, en, he, hen⟩

theorem fixed_fields {en en' : CfgEntry} (h : en'.fixed = en.fixed) :
    en'.dynmem = en.dynmem ∧ en'.ptrmem = en.ptrmem ∧ en'.ptrtgt = en.ptrtgt ∧
      en'.dynval = en.dynval :=
  ⟨congrArg (·.dynmem) h, congrArg (·.ptrmem) h, congrArg (·.ptrtgt) h, congrArg (·.dynval) h⟩

theorem CfgMem.Linked.of_keeps (h : cfg.Linked) (hk : cfg.Keeps φ χ ψ cfg') : cfg'.Linked := by
  refine ⟨fun pm hpm => ?_, fun p pm e hp => ?_, fun e en he hd => ?_⟩
  · obtain ⟨p, hp⟩ := List.mem_iff_getElem?.mp hpm
    obtain ⟨pm', hp', hf, -⟩ := hk.ptrmem hp
    have hcfg : pm'.cfg = pm.cfg := congrArg (·.cfg) hf
    exact hcfg ▸ h.nodup pm' (List.mem_of_getElem? hp')
  · obtain ⟨pm', hp', hf, -⟩ := hk.ptrmem hp
    have hcfg : pm'.cfg = pm.cfg := congrArg (·.cfg) hf
    rw [← hcfg, h.mem_cfg p pm' e hp']
    constructor
    · rintro ⟨en, he, hen⟩
      obtain ⟨en', he', heq⟩ := Pointwise.getElem?_of_map_eq hk.entries he
      refine ⟨en', he', ?_⟩
      rw [(fixed_fields (congrArg (·.1) heq)).2.1, hen]
    · rintro ⟨en, he, hen⟩
      obtain ⟨en', he', hf', -⟩ := hk.entry he
      exact ⟨en', he', by rw [(fixed_fields hf').2.1, hen]⟩
  · obtain ⟨en', he', hf', -⟩ := hk.entry he
    obtain ⟨hd', hp', -⟩ := fixed_fields hf'
    exact hp' ▸ h.classes e en' he' (hd' ▸ hd)

end Links

/-! ## Numbers of elements -/

/-- The number of objects of the class of an entry. -/
def CfgMem.numObjs (cfg : CfgMem) (e : Nat) : Nat :=
  ((cfg.entries[e]?.bind cfg.objs).map List.length).getD 0

/-- The sum over all entries that point to a section. -/
def CfgMem.sumTo (cfg : CfgMem) (p : Nat) (cnt : Nat → Nat) (k : Nat) : Nat :=
  ∑ e ∈ Finset.range k, if cfg.tgt e = some p then cnt e else 0

/-- The objects of all entries that point to a section. -/
def CfgMem.reachedObjs (cfg : CfgMem) (p : Nat) : Nat :=
  cfg.sumTo p cfg.numObjs cfg.entries.length

/-- The pointers outside of classes that point to a section: each has added an element at start. -/
def CfgMem.statics (cfg : CfgMem) (p : Nat) : Nat :=
  cfg.entries.countP fun en => en.ptrtgt = some p ∧ en.dynmem = none

/-- The vectors have `cnt e` elements for the entry `e`. -/
structure CfgMem.Counts (cfg : CfgMem) (cnt : Nat → Nat) : Prop where
  values : ∀ (e : Nat) (en : CfgEntry) (mvec : List Ptr), cfg.entries[e]? = some en →
    cfg.objs en = some mvec → en.vals.dims = (cnt e, cnt e, cnt e)
  targets : ∀ (p : Nat) (pm : PtrMemEntry) (e : Nat) (en : CfgEntry), cfg.ptrmems[p]? = some pm →
    e ∈ pm.cfg → cfg.entries[e]? = some en →
    en.vals.dims = (cfg.sumTo p cnt cfg.entries.length, cfg.sumTo p cnt cfg.entries.length,
      cfg.sumTo p cnt cfg.entries.length)
  states : ∀ (p : Nat) (pm : PtrMemEntry), cfg.ptrmems[p]? = some pm →
    pm.dims = (cfg.statics p + cfg.sumTo p cnt cfg.entries.length,
      cfg.statics p + cfg.sumTo p cnt cfg.entries.length)

structure CfgMem.Aligned (cfg : CfgMem) : Prop where
  classes : ∀ dm ∈ cfg.dynmems, dm.Aligned
  freed : ∀ dm ∈ cfg.dynmems, dm.numFreed ≤ dm.vMaddr.count 0
  counts : cfg.Counts cfg.numObjs

section Counts

variable {cfg cfg' : CfgMem} {e p k : Nat} {en : CfgEntry} {cnt cnt' : Nat → Nat}
  {β γ δ : Type} {φ : EntryVals → β} {χ : DynMemEntry → δ} {ψ : PtrMemEntry → γ}

theorem CfgMem.Keeps.tgt (hk : cfg.Keeps φ χ ψ cfg') (e : Nat) : cfg'.tgt e = cfg.tgt e := by
  unfold CfgMem.tgt
  have := congrArg (·[e]?) hk.entries
  simp only [List.getElem?_map] at this
  cases h' : cfg'.entries[e]? <;> cases h : cfg.entries[e]? <;> simp only [h, h', Option.map_some,
    Option.map_none, reduceCtorEq, Option.some.injEq, Prod.mk.injEq] at this
  · rfl
  · simp [(fixed_fields this.1).2.2.1]

theorem CfgMem.Keeps.length (hk : cfg.Keeps φ χ ψ cfg') :
    cfg'.entries.length = cfg.entries.length := by
  simpa using congrArg List.length hk.entries

theorem sumTo_congr (ht : ∀ e, cfg'.tgt e = cfg.tgt e) (hc : ∀ e < k, cnt' e = cnt e) :
    cfg'.sumTo p cnt' k = cfg.sumTo p cnt k := by
  refine Finset.sum_congr rfl fun e he => ?_
  rw [ht, hc e (Finset.mem_range.mp he)]

theorem CfgMem.Keeps.statics (hk : cfg.Keeps φ χ ψ cfg') (p : Nat) :
    cfg'.statics p = cfg.statics p := by
  have h : ∀ cfg : CfgMem, cfg.statics p = (cfg.entries.map fun en => (en.fixed, φ en.vals)).countP
      fun x => x.1.ptrtgt = some p ∧ x.1.dynmem = none := by
    intro cfg
    rw [List.countP_map]
    rfl
  rw [h, h, hk.entries]

/-- The objects of an entry are the same, but some may have been marked. -/
theorem CfgMem.Keeps.objs (hk : cfg.Keeps φ χ ψ cfg') {en' : CfgEntry}
    (hd : en'.dynmem = en.dynmem) {mvec : List Ptr} (h : cfg'.objs en' = some mvec) :
    ∃ mvec', cfg.objs en = some mvec' ∧
      List.Forall₂ (fun a a' => a' = a ∨ a' = 0) mvec' mvec := by
  obtain ⟨dm, hdm, rfl⟩ := Option.map_eq_some_iff.mp h
  obtain ⟨d, hd', hdm⟩ := Option.bind_eq_some_iff.mp hdm
  obtain ⟨dm', hdm', hkd⟩ := hk.dynmem hdm
  refine ⟨dm'.vMaddr, ?_, hkd.vMaddr⟩
  simp [CfgMem.objs, ← hd, hd', hdm']

theorem CfgMem.Keeps.objs_none (hk : cfg.Keeps φ χ ψ cfg') {en' : CfgEntry}
    (hd : en'.dynmem = en.dynmem) (h : cfg'.objs en' = none) : cfg.objs en = none := by
  have hlen := List.Forall₂.length_eq hk.dynmems
  unfold CfgMem.objs at h ⊢
  rw [Option.map_eq_none_iff, Option.bind_eq_none_iff] at h ⊢
  intro d hd'
  have := h d (hd.trans hd')
  rw [List.getElem?_eq_none_iff] at this ⊢
  omega

theorem CfgMem.Keeps.numObjs (hk : cfg.Keeps φ χ ψ cfg') (e : Nat) :
    cfg'.numObjs e = cfg.numObjs e := by
  unfold CfgMem.numObjs
  cases he' : cfg'.entries[e]? with
  | none =>
    rw [List.getElem?_eq_none_iff, hk.length, ← List.getElem?_eq_none_iff] at he'
    rw [he']
    rfl
  | some en' =>
    obtain ⟨en, he, hf, -⟩ := hk.entry he'
    have hd := (fixed_fields hf).1.symm
    rw [he, Option.bind_some, Option.bind_some]
    cases h : cfg'.objs en' with
    | none => rw [hk.objs_none hd h]
    | some mvec =>
      obtain ⟨mvec', h', hall⟩ := hk.objs hd h
      rw [h', Option.map_some, Option.map_some, hall.length_eq]

theorem CfgMem.Counts.of_keeps (h : cfg.Counts cnt)
    (hk : cfg.KeepsDims cfg') : cfg'.Counts cnt := by
  have hsum : ∀ p, cfg'.sumTo p cnt cfg'.entries.length = cfg.sumTo p cnt cfg.entries.length := by
    intro p
    rw [hk.length]
    exact sumTo_congr hk.tgt fun _ _ => rfl
  refine ⟨fun e en mvec he ho => ?_, fun p pm e en hp hm he => ?_, fun p pm hp => ?_⟩
  · obtain ⟨en', he', hf, hv⟩ := hk.entry he
    obtain ⟨mvec', ho', -⟩ := hk.objs (fixed_fields hf).1.symm ho
    rw [← hv]
    exact h.values e en' mvec' he' ho'
  · obtain ⟨en', he', -, hv⟩ := hk.entry he
    obtain ⟨pm', hp', hf, -⟩ := hk.ptrmem hp
    have hcfg : pm'.cfg = pm.cfg := congrArg (·.cfg) hf
    rw [← hv, hsum]
    exact h.targets p pm' e en' hp' (hcfg ▸ hm) he'
  · obtain ⟨pm', hp', -, hv⟩ := hk.ptrmem hp
    rw [← hv, hsum, hk.statics]
    exact h.states p pm' hp'

theorem DynMemEntry.Keeps.aligned {dm dm' : DynMemEntry} (hk : dm.Keeps dm') (h : dm.Aligned) :
    dm'.Aligned := by
  have h1 := hk.vMaddr.length_eq
  have h2 := hk.vMsize.length_eq
  unfold DynMemEntry.Aligned at h ⊢
  omega

/-- **All phases that change no number** keep the alignment. -/
theorem CfgMem.Aligned.of_keeps (h : cfg.Aligned)
    (hk : cfg.KeepsDims cfg') : cfg'.Aligned := by
  have hdm : ∀ dm ∈ cfg'.dynmems, ∃ dm' ∈ cfg.dynmems, dm'.Keeps dm := by
    intro dm hdm
    obtain ⟨d, hd⟩ := List.mem_iff_getElem?.mp hdm
    obtain ⟨dm', hd', hkd⟩ := hk.dynmem hd
    exact ⟨dm', List.mem_of_getElem? hd', hkd⟩
  refine ⟨fun dm hm => ?_, fun dm hm => ?_, ?_⟩
  · obtain ⟨dm', hm', hkd⟩ := hdm dm hm
    exact hkd.aligned (h.classes dm' hm')
  · obtain ⟨dm', hm', hkd⟩ := hdm dm hm
    exact hkd.numFreed (h.freed dm' hm')
  · have hn : cfg'.numObjs = cfg.numObjs := funext hk.numObjs
    rw [hn]
    exact h.counts.of_keeps hk

end Counts

/-! ## New objects -/

section Rounds

variable {cfg cfg' : CfgMem} {e p k : Nat} {en : CfgEntry} {pm : PtrMemEntry} {cnt : Nat → Nat}
  {f : RoundOps} {mvec : List Ptr}

theorem numObjs_of_objs (he : cfg.entries[e]? = some en) (ho : cfg.objs en = some mvec) :
    cfg.numObjs e = mvec.length := by
  simp [CfgMem.numObjs, he, ho]

theorem isSome_of_objs (ho : cfg.objs en = some mvec) : en.dynmem.isSome := by
  obtain ⟨dm, hdm, -⟩ := Option.map_eq_some_iff.mp ho
  obtain ⟨d, hd, -⟩ := Option.bind_eq_some_iff.mp hdm
  rw [hd]
  rfl

theorem opsOf_of_objs (h : cfg.Counts cnt) (he : cfg.entries[e]? = some en)
    (ho : cfg.objs en = some mvec) : cfg.opsOf f e = f mvec (cnt e) := by
  have hlen : en.vals.vOldval.length = cnt e := congrArg (·.1) (h.values e en mvec he ho)
  simp [CfgMem.opsOf, he, ho, hlen]

theorem CfgMem.Rounds.statics (h : cfg.Rounds f k cfg') (p : Nat) :
    cfg'.statics p = cfg.statics p := by
  have hmap : cfg'.entries.map (fun en => (en.ptrtgt, en.dynmem)) =
      cfg.entries.map (fun en => (en.ptrtgt, en.dynmem)) := by
    refine List.ext_getElem? fun e => ?_
    rw [List.getElem?_map, List.getElem?_map, h.entry, Option.map_map]
    refine congrArg (Option.map · _) (funext fun en => ?_)
    simp only [Function.comp, vecOps_ptrtgt, vecOps_dynmem]
  have hcount : ∀ cfg : CfgMem, cfg.statics p =
      (cfg.entries.map fun en => (en.ptrtgt, en.dynmem)).countP
        fun x => x.1 = some p ∧ x.2 = none := by
    intro cfg
    rw [List.countP_map]
    rfl
  rw [hcount, hcount, hmap]

theorem CfgMem.Rounds.objs (h : cfg.Rounds f k cfg') (ops : List VecOp) (en : CfgEntry) :
    cfg'.objs (en.vecOps ops) = cfg.objs en := by
  unfold CfgMem.objs
  rw [h.same.dynmems, vecOps_dynmem]

theorem CfgMem.Rounds.numObjs (h : cfg.Rounds f k cfg') (e : Nat) :
    cfg'.numObjs e = cfg.numObjs e := by
  unfold CfgMem.numObjs
  rw [h.entry]
  cases cfg.entries[e]? with
  | none => rfl
  | some en =>
    rw [Option.map_some, Option.bind_some, Option.bind_some, h.objs]

theorem CfgMem.Rounds.linked (h : cfg.Rounds f k cfg') (hl : cfg.Linked) : cfg'.Linked := by
  have hvp : ∀ (ops : List VecOp) (en : CfgEntry), (en.vecOps ops).ptrmem = en.ptrmem := by
    intro ops en
    rw [CfgEntry.vecOps_eq]
  refine ⟨h.same.nodup hl.nodup, fun p pm e hp => ?_, fun e en he hd => ?_⟩
  · rw [h.ptrmem] at hp
    obtain ⟨pm, hp', rfl⟩ := Option.map_eq_some_iff.mp hp
    have hcfg : (pm.vecOps (cfg.ptrmemOps f k p)).cfg = pm.cfg := by
      rw [PtrMemEntry.vecOps_eq]
    rw [hcfg, hl.mem_cfg p pm e hp', h.entry]
    cases cfg.entries[e]? with
    | none => simp
    | some en => simp [hvp]
  · rw [h.entry] at he
    obtain ⟨en, he', rfl⟩ := Option.map_eq_some_iff.mp he
    rw [hvp]
    exact hl.classes e en he' (by simpa using hd)

theorem dims_vecOps (ops : List VecOp) (en : CfgEntry) : (en.vecOps ops).vals.dims =
    ((vecOps 0 ops en.vals.vOldval).length, (vecOps en.vals.value ops en.vals.vValue).length,
      (vecOps en.newCstr ops en.vals.vCstr).length) := by
  rw [CfgEntry.vecOps_eq]
  rfl

theorem pmDims_vecOps (ops : List VecOp) (pm : PtrMemEntry) : (pm.vecOps ops).dims =
    ((vecOps .init ops pm.vState).length, (vecOps 0 ops pm.vOffs).length) := by
  rw [PtrMemEntry.vecOps_eq]
  rfl

/-- What the rounds do to the numbers: `new e` elements for the entry `e`. -/
theorem CfgMem.Rounds.counts (h : cfg.Rounds f cfg.entries.length cfg') (hl : cfg.Linked)
    (hc : cfg.Counts cnt) {new : Nat → Nat}
    (hvals : ∀ (e : Nat) (en : CfgEntry) (mvec : List Ptr), cfg.entries[e]? = some en →
      cfg.objs en = some mvec → ∀ {α : Type} (x : α) (l : List α), l.length = cnt e →
      (vecOps x (cfg.opsOf f e) l).length = new e)
    (hptr : ∀ (p c : Nat) {α : Type} (x : α) (l : List α),
      l.length = c + cfg.sumTo p cnt cfg.entries.length →
      (vecOps x (cfg.ptrmemOps f cfg.entries.length p) l).length =
        c + cfg.sumTo p new cfg.entries.length) :
    cfg'.Counts new := by
  have hsum : ∀ p, cfg'.sumTo p new cfg'.entries.length = cfg.sumTo p new cfg.entries.length := by
    intro p
    rw [h.same.length]
    exact sumTo_congr h.tgt fun _ _ => rfl
  refine ⟨fun e en mvec he ho => ?_, fun p pm e en hp hm he => ?_, fun p pm hp => ?_⟩
  · rw [h.entry] at he
    obtain ⟨en, he', rfl⟩ := Option.map_eq_some_iff.mp he
    rw [h.objs] at ho
    have hv := hc.values e en mvec he' ho
    rw [dims_vecOps, hl.entryOps_class he' (isSome_of_objs ho),
      hvals e en mvec he' ho _ _ (congrArg (·.1) hv), hvals e en mvec he' ho _ _ (congrArg (·.2.1) hv),
      hvals e en mvec he' ho _ _ (congrArg (·.2.2) hv)]
  · rw [h.ptrmem] at hp
    obtain ⟨pm, hp', rfl⟩ := Option.map_eq_some_iff.mp hp
    rw [h.entry] at he
    obtain ⟨en, he', rfl⟩ := Option.map_eq_some_iff.mp he
    have hcfg : (pm.vecOps (cfg.ptrmemOps f cfg.entries.length p)).cfg = pm.cfg := by
      rw [PtrMemEntry.vecOps_eq]
    rw [hcfg] at hm
    have hv := hc.targets p pm e en hp' hm he'
    have h0 : ∀ n, n = 0 + n := fun n => (Nat.zero_add n).symm
    rw [dims_vecOps, hl.entryOps_target hp' hm, hsum,
      hptr p 0 _ _ ((congrArg (·.1) hv).trans (h0 _)),
      hptr p 0 _ _ ((congrArg (·.2.1) hv).trans (h0 _)),
      hptr p 0 _ _ ((congrArg (·.2.2) hv).trans (h0 _)), Nat.zero_add]
  · rw [h.ptrmem] at hp
    obtain ⟨pm, hp', rfl⟩ := Option.map_eq_some_iff.mp hp
    have hv := hc.states p pm hp'
    rw [pmDims_vecOps, hsum, h.statics, hptr p _ _ _ (congrArg (·.1) hv),
      hptr p _ _ _ (congrArg (·.2) hv)]

theorem sumTo_succ (cfg : CfgMem) (p : Nat) (cnt : Nat → Nat) (k : Nat) :
    cfg.sumTo p cnt (k + 1) = cfg.sumTo p cnt k + if cfg.tgt k = some p then cnt k else 0 :=
  Finset.sum_range_succ _ _

theorem ptrmemOps_succ (cfg : CfgMem) (f : RoundOps) (k p : Nat) : cfg.ptrmemOps f (k + 1) p =
    cfg.ptrmemOps f k p ++ if cfg.tgt k = some p then cfg.opsOf f k else [] := by
  simp [CfgMem.ptrmemOps, List.range_succ]

/-- The round of an entry appends what its vectors lack. -/
theorem opsOf_alloc (h : cfg.Counts cnt) (e : Nat) :
    cfg.opsOf allocOps e = List.replicate (cfg.numObjs e - cnt e) none := by
  cases he : cfg.entries[e]? with
  | none => simp [CfgMem.opsOf, CfgMem.numObjs, he]
  | some en =>
    cases ho : cfg.objs en with
    | none => simp [CfgMem.opsOf, CfgMem.numObjs, he, ho]
    | some mvec => rw [opsOf_of_objs h he ho, numObjs_of_objs he ho, allocOps]

theorem ptrmemOps_alloc (h : cfg.Counts cnt) (k p : Nat) : cfg.ptrmemOps allocOps k p =
    List.replicate (cfg.sumTo p (fun e => cfg.numObjs e - cnt e) k) none := by
  induction k with
  | zero => rfl
  | succ k ih =>
    rw [ptrmemOps_succ, sumTo_succ, ih, List.replicate_add]
    split
    · rw [opsOf_alloc h]
    · rfl

theorem sumTo_add (cfg : CfgMem) (p : Nat) (f g : Nat → Nat) (k : Nat) :
    cfg.sumTo p f k + cfg.sumTo p g k = cfg.sumTo p (fun e => f e + g e) k := by
  unfold CfgMem.sumTo
  rw [← Finset.sum_add_distrib]
  refine Finset.sum_congr rfl fun e _ => ?_
  split <;> rfl

/-- **Values for new objects.** -/
theorem counts_allocDynmem (hl : cfg.Linked) (h : cfg.Counts cnt)
    (hle : ∀ e, cnt e ≤ cfg.numObjs e) : (allocDynmem cfg).Counts (allocDynmem cfg).numObjs := by
  have hr := allocDynmem_rounds hl.sections
  rw [funext hr.numObjs]
  refine hr.counts hl h (fun e en mvec _ _ α x l hlen => ?_) fun p c α x l hlen => ?_
  · rw [opsOf_alloc h, vecOps_replicate, List.length_append, List.length_replicate, hlen]
    exact Nat.add_sub_cancel' (hle e)
  · rw [ptrmemOps_alloc h, vecOps_replicate, List.length_append, List.length_replicate, hlen,
      Nat.add_assoc, sumTo_add]
    refine congrArg (c + ·) (sumTo_congr (fun _ => rfl) fun e _ => ?_)
    exact Nat.add_sub_cancel' (hle e)

end Rounds

/-! ## Removal -/

section Removal

variable {cfg cfg' : CfgMem} {e p k d : Nat} {en : CfgEntry} {dm : DynMemEntry}
  {mvec : List Ptr} {dynmems : List DynMemEntry} {es : List CfgEntry} {old : Option Nat}

theorem keepObjs_nil {α : Type} (l : List α) : keepObjs [] l = [] := by
  simp [keepObjs]

theorem keepObjs_self (mvec : List Ptr) : keepObjs mvec mvec = mvec.filter (· ≠ 0) := by
  induction mvec with
  | nil => rfl
  | cons m mvec ih =>
    by_cases hm : m = 0#64 <;> simp [keepObjs_cons, hm, ih]

theorem eraseObjs_append (pre : List Ptr) (pre' : List SizeT) (mvec : List Ptr)
    (svec : List SizeT) (hpre : pre.length = pre'.length) (h : mvec.length = svec.length) :
    eraseObjs (pre ++ mvec) (pre' ++ svec) pre.length =
      (pre ++ keepObjs mvec mvec, pre' ++ keepObjs mvec svec) := by
  induction mvec generalizing pre pre' svec with
  | nil =>
    obtain rfl : svec = [] := List.length_eq_zero_iff.mp h.symm
    rw [eraseObjs, dif_neg (by simp), keepObjs_nil]
  | cons m mvec ih =>
    obtain ⟨x, svec, rfl⟩ : ∃ x xs, svec = x :: xs := List.exists_cons_of_length_pos (by
      rw [← h]
      exact Nat.succ_pos _)
    have hlen : mvec.length = svec.length := by simpa using h
    rw [eraseObjs, dif_pos (by simp)]
    by_cases hm : m = 0
    · have h1 : (pre ++ m :: mvec).eraseIdx pre.length = pre ++ mvec := by
        simp [List.eraseIdx_append_of_length_le]
      have h2 : (pre' ++ x :: svec).eraseIdx pre.length = pre' ++ svec := by
        simp [hpre, List.eraseIdx_append_of_length_le]
      rw [if_pos (by simpa using hm), h1, h2, ih pre pre' svec hpre hlen, keepObjs_cons,
        keepObjs_cons, if_pos hm, if_pos hm]
    · have h1 : pre.length + 1 = (pre ++ [m]).length := by simp
      have h2 : pre ++ m :: mvec = (pre ++ [m]) ++ mvec := by simp
      have h3 : pre' ++ x :: svec = (pre' ++ [x]) ++ svec := by simp
      rw [if_neg (by simpa using hm), h1, h2, h3,
        ih (pre ++ [m]) (pre' ++ [x]) svec (by simp [hpre]) hlen, keepObjs_cons, keepObjs_cons,
        if_neg hm, if_neg hm]
      simp

/-- **What `free_dynmem` leaves of a class**: the objects that are not marked, in their order. -/
theorem DynMemEntry.eraseObjs_eq (h : dm.Aligned) : dm.eraseObjs =
    { dm with
      vMaddr := dm.vMaddr.filter (· ≠ 0)
      vMsize := keepObjs dm.vMaddr dm.vMsize
      numFreed := 0 } := by
  have := eraseObjs_append [] [] dm.vMaddr dm.vMsize rfl h
  rw [List.nil_append, List.nil_append, List.nil_append, List.nil_append, List.length_nil,
    keepObjs_self] at this
  unfold DynMemEntry.eraseObjs
  rw [this]

theorem keepObjs_of_clean {α : Type} {mvec : List Ptr} {l : List α}
    (h : mvec.length = l.length) (h0 : ∀ m ∈ mvec, m ≠ 0) : keepObjs mvec l = l := by
  induction mvec generalizing l with
  | nil => rw [List.length_eq_zero_iff.mp h.symm, keepObjs_nil]
  | cons m mvec ih =>
    cases l with
    | nil => cases h
    | cons y l =>
      rw [keepObjs_cons, if_neg (h0 m List.mem_cons_self),
        ih (by simpa using h) fun m' hm' => h0 m' (List.mem_cons_of_mem _ hm')]

theorem DynMemEntry.eraseObjs_aligned (h : dm.Aligned) : dm.eraseObjs.Aligned :=
  (sameObjs_eraseObjs dm).aligned h

theorem DynMemEntry.eraseObjs_idem (h : dm.Aligned) : dm.eraseObjs.eraseObjs = dm.eraseObjs := by
  have ha := DynMemEntry.eraseObjs_aligned h
  have hclean : ∀ m ∈ dm.eraseObjs.vMaddr, m ≠ 0 := by
    intro m hm
    rw [DynMemEntry.eraseObjs_eq h] at hm
    simpa using (List.mem_filter.mp hm).2
  have hself : dm.eraseObjs.vMaddr.filter (· ≠ 0) = dm.eraseObjs.vMaddr :=
    List.filter_eq_self.mpr fun m hm => by simpa using hclean m hm
  rw [DynMemEntry.eraseObjs_eq ha, hself, keepObjs_of_clean ha hclean]
  rw [DynMemEntry.eraseObjs_eq h]

instance : Decidable (Refs es d) := inferInstanceAs (Decidable (_ ∈ _))

/-- The second entry loop of `free_dynmem` goes through all classes of entries. -/
theorem freeObjs_getElem? (ha : ∀ dm ∈ dynmems, dm.Aligned)
    (hold : ∀ (d : Nat) (dm : DynMemEntry), old = some d → dynmems[d]? = some dm →
      dm.eraseObjs = dm) (d : Nat) :
    (freeObjs dynmems old es)[d]? =
      dynmems[d]?.map fun dm => if Refs es d then dm.eraseObjs else dm := by
  induction es generalizing dynmems old with
  | nil => simp [freeObjs, Refs]
  | cons en es ih =>
    have hrefs : Refs (en :: es) d ↔ some d = en.dynmem ∨ Refs es d := by simp [Refs]
    rw [freeObjs]
    split
    · rename_i hskip
      rw [ih ha hold]
      refine Option.map_congr fun dm hdm => ?_
      rcases hskip with hd | hd
      · simp [hrefs, hd]
      · -- Where the class stands before it, it is clean.
        by_cases hr : Refs es d
        · rw [if_pos hr, if_pos (hrefs.mpr (.inr hr))]
        · rw [if_neg hr]
          split
          · rename_i hr'
            rcases hrefs.mp hr' with hd' | hr'
            · exact (hold d dm (hd ▸ hd'.symm) hdm).symm
            · exact absurd hr' hr
          · rfl
    · rename_i hskip
      obtain ⟨d', hd'⟩ : ∃ d', en.dynmem = some d' := by
        cases hd : en.dynmem with
        | none => exact absurd (.inl hd) hskip
        | some d' => exact ⟨d', rfl⟩
      rw [hd', Option.elim_some]
      have ha' : ∀ dm ∈ dynmems.modify d' DynMemEntry.eraseObjs, dm.Aligned := by
        intro dm hdm
        obtain ⟨j, hj⟩ := List.mem_iff_getElem?.mp hdm
        rw [List.getElem?_modify] at hj
        obtain ⟨dm', hdm', rfl⟩ := Option.map_eq_some_iff.mp hj
        have := ha dm' (List.mem_of_getElem? hdm')
        split
        · exact DynMemEntry.eraseObjs_aligned this
        · exact this
      rw [ih ha' ?_]
      · rw [List.getElem?_modify, Option.map_eq_map, Option.map_map]
        refine Option.map_congr fun dm hdm => ?_
        have hdma := ha dm (List.mem_of_getElem? hdm)
        simp only [Function.comp, hrefs, hd', Option.some.injEq]
        by_cases hdd : d' = d
        · subst hdd
          simp [DynMemEntry.eraseObjs_idem hdma]
        · simp [hdd, Ne.symm hdd]
      · rintro j dm hj hdm
        cases hj
        rw [List.getElem?_modify_eq] at hdm
        obtain ⟨dm', hdm', rfl⟩ := Option.map_eq_some_iff.mp hdm
        exact DynMemEntry.eraseObjs_idem (ha dm' (List.mem_of_getElem? hdm'))

/-- The marked objects of the class of an entry. -/
def CfgMem.marked (cfg : CfgMem) (e : Nat) : Nat :=
  ((cfg.entries[e]?.bind cfg.objs).map (·.count 0)).getD 0

theorem marked_le (cfg : CfgMem) (e : Nat) : cfg.marked e ≤ cfg.numObjs e := by
  unfold CfgMem.marked CfgMem.numObjs
  cases cfg.entries[e]?.bind cfg.objs with
  | none => exact Nat.le_refl 0
  | some mvec => exact List.count_le_length

theorem freeMarks_count (mvec : List Ptr) :
    (freeMarks 0 mvec.length mvec).length = mvec.count 0 := by
  rw [freeMarks_length mvec 0 mvec.length (by omega), Nat.sub_zero, List.take_length,
    List.count_eq_length_filter]
  refine congrArg List.length (List.filter_congr fun m _ => ?_)
  simp [beq_eq_decide]

/-- The round of an entry removes the values of the marked objects. -/
theorem opsOf_free (h : cfg.Counts cfg.numObjs) (e : Nat) :
    cfg.opsOf freeOps e = [] ∧ cfg.marked e = 0 ∨
      ∃ mvec, cfg.opsOf freeOps e = (freeMarks 0 (cfg.numObjs e) mvec).map some ∧
        mvec.length = cfg.numObjs e ∧ mvec.count 0 = cfg.marked e := by
  cases he : cfg.entries[e]? with
  | none => exact .inl (by simp [CfgMem.opsOf, CfgMem.marked, he])
  | some en =>
    cases ho : cfg.objs en with
    | none => exact .inl (by simp [CfgMem.opsOf, CfgMem.marked, he, ho])
    | some mvec =>
      refine .inr ⟨mvec, opsOf_of_objs h he ho, (numObjs_of_objs he ho).symm, ?_⟩
      simp [CfgMem.marked, he, ho]

/-- One round: the vector loses the elements of the marked objects. -/
theorem length_opsOf_free (h : cfg.Counts cfg.numObjs) {α : Type} (x : α) {l : List α}
    (hl : cfg.numObjs e ≤ l.length) :
    (vecOps x (cfg.opsOf freeOps e) l).length + cfg.marked e = l.length := by
  rcases opsOf_free h e with ⟨hnil, h0⟩ | ⟨mvec, hops, hlen, hcount⟩
  · rw [hnil, h0]
    rfl
  · have hf := length_vecOps_free (x := x) (l := l) mvec 0 (cfg.numObjs e) (Nat.zero_le _) hl
    have hc := freeMarks_count mvec
    rw [hlen] at hc
    rw [hops]
    omega

theorem sumTo_le (cfg : CfgMem) (p : Nat) {f g : Nat → Nat} (hfg : ∀ e, f e ≤ g e) (k : Nat) :
    cfg.sumTo p f k ≤ cfg.sumTo p g k := by
  refine Finset.sum_le_sum fun e _ => ?_
  split
  · exact hfg e
  · exact Nat.le_refl 0

theorem sumTo_mono (cfg : CfgMem) (p : Nat) (f : Nat → Nat) {k n : Nat} (hk : k ≤ n) :
    cfg.sumTo p f k ≤ cfg.sumTo p f n :=
  Finset.sum_le_sum_of_subset (Finset.range_subset_range.mpr hk)

/-- The rounds on a section: each finds the elements of its own objects. -/
theorem length_ptrmemOps_free (h : cfg.Counts cfg.numObjs) {α : Type} (x : α) {l : List α}
    {n : Nat} (hl : cfg.sumTo p cfg.numObjs n ≤ l.length) (hk : k ≤ n) :
    (vecOps x (cfg.ptrmemOps freeOps k p) l).length + cfg.sumTo p cfg.marked k = l.length := by
  induction k with
  | zero => rfl
  | succ k ih =>
    have ih := ih (by omega)
    rw [ptrmemOps_succ, vecOps_append, sumTo_succ]
    split
    · rename_i ht
      have hroom : cfg.sumTo p cfg.numObjs k + cfg.numObjs k ≤ l.length := by
        have := sumTo_mono cfg p cfg.numObjs hk
        rw [sumTo_succ, if_pos ht] at this
        omega
      have hle := sumTo_le cfg p (marked_le cfg) k
      have := length_opsOf_free h x (e := k) (l := vecOps x (cfg.ptrmemOps freeOps k p) l)
        (by omega)
      omega
    · exact ih

theorem length_filter_ne_zero (mvec : List Ptr) :
    (mvec.filter (· ≠ 0)).length = mvec.length - mvec.count 0 := by
  have h := List.length_eq_countP_add_countP (fun m : Ptr => m == 0) (l := mvec)
  rw [List.count, h, List.countP_eq_length_filter (l := mvec) (p := fun a => ¬(a == 0) = true)]
  have hf : mvec.filter (fun a => decide ¬(a == 0) = true) = mvec.filter (· ≠ 0) :=
    List.filter_congr fun m _ => by simp
  rw [hf]
  omega

/-- The state between the two entry loops of `free_dynmem`. -/
def freedVals (cfg : CfgMem) : CfgMem := (List.range cfg.entries.length).foldl freeEntry cfg

theorem freedVals_rounds (hl : cfg.Linked) :
    cfg.Rounds freeOps cfg.entries.length (freedVals cfg) :=
  freeEntries_rounds hl.sections

theorem freeDynmem_entries (cfg : CfgMem) : (freeDynmem cfg).entries = (freedVals cfg).entries :=
  rfl

theorem freeDynmem_dynmem (hl : cfg.Linked) (ha : ∀ dm ∈ cfg.dynmems, dm.Aligned) (d : Nat) :
    (freeDynmem cfg).dynmems[d]? =
      cfg.dynmems[d]?.map fun dm => if Refs cfg.entries d then dm.eraseObjs else dm := by
  have hr := freedVals_rounds hl
  have hrefs : (freedVals cfg).entries.map (·.dynmem) = cfg.entries.map (·.dynmem) := by
    refine List.ext_getElem? fun e => ?_
    rw [List.getElem?_map, List.getElem?_map, hr.entry, Option.map_map]
    refine congrArg (Option.map · _) (funext fun en => ?_)
    simp only [Function.comp, vecOps_dynmem]
  have h : (freeDynmem cfg).dynmems = freeObjs cfg.dynmems none (freedVals cfg).entries :=
    congrArg (freeObjs · none _) hr.same.dynmems
  rw [h, freeObjs_getElem? ha (by simp)]
  refine congrArg (Option.map · _) (funext fun dm => if_congr ?_ rfl rfl)
  unfold Refs
  rw [hrefs]

/-- The objects of an entry that are not marked remain. -/
theorem freeDynmem_objs_of (hl : cfg.Linked) (ha : ∀ dm ∈ cfg.dynmems, dm.Aligned)
    (he : cfg.entries[e]? = some en) {en' : CfgEntry} (hd : en'.dynmem = en.dynmem) :
    (freeDynmem cfg).objs en' = (cfg.objs en).map (·.filter (· ≠ 0)) := by
  unfold CfgMem.objs
  rw [hd]
  cases hd : en.dynmem with
  | none => rfl
  | some d =>
    have hr : Refs cfg.entries d := List.mem_map.mpr ⟨en, List.mem_of_getElem? he, hd⟩
    rw [Option.bind_some, Option.bind_some, freeDynmem_dynmem hl ha]
    cases hdm : cfg.dynmems[d]? with
    | none => rfl
    | some dm =>
      simp only [Option.map_some, if_pos hr, DynMemEntry.eraseObjs_eq (ha dm (List.mem_of_getElem? hdm))]

theorem freeDynmem_numObjs (hl : cfg.Linked) (ha : ∀ dm ∈ cfg.dynmems, dm.Aligned) (e : Nat) :
    (freeDynmem cfg).numObjs e = cfg.numObjs e - cfg.marked e := by
  unfold CfgMem.numObjs CfgMem.marked
  rw [freeDynmem_entries, (freedVals_rounds hl).entry]
  cases he : cfg.entries[e]? with
  | none => rfl
  | some en =>
    rw [Option.map_some, Option.bind_some, Option.bind_some,
      freeDynmem_objs_of hl ha he (vecOps_dynmem _)]
    cases cfg.objs en with
    | none => rfl
    | some mvec => exact length_filter_ne_zero mvec

theorem linked_freeDynmem (hl : cfg.Linked) : (freeDynmem cfg).Linked := by
  have h := (freedVals_rounds hl).linked hl
  exact ⟨h.nodup, h.mem_cfg, h.classes⟩

/-- **`free_dynmem` keeps the alignment.** -/
theorem aligned_freeDynmem (hl : cfg.Linked) (h : cfg.Aligned) : (freeDynmem cfg).Aligned := by
  have hr := freedVals_rounds hl
  have hdm : ∀ dm ∈ (freeDynmem cfg).dynmems, ∃ dm' ∈ cfg.dynmems, dm = dm'.eraseObjs ∨ dm = dm' := by
    intro dm hm
    obtain ⟨d, hd⟩ := List.mem_iff_getElem?.mp hm
    rw [freeDynmem_dynmem hl h.classes] at hd
    obtain ⟨dm', hd', rfl⟩ := Option.map_eq_some_iff.mp hd
    refine ⟨dm', List.mem_of_getElem? hd', ?_⟩
    split
    · exact .inl rfl
    · exact .inr rfl
  refine ⟨fun dm hm => ?_, fun dm hm => ?_, ?_⟩
  · rcases hdm dm hm with ⟨dm', hm', rfl | rfl⟩
    · exact DynMemEntry.eraseObjs_aligned (h.classes dm' hm')
    · exact h.classes dm hm'
  · rcases hdm dm hm with ⟨dm', hm', rfl | rfl⟩
    · rw [DynMemEntry.eraseObjs_eq (h.classes dm' hm')]
      exact Nat.zero_le _
    · exact h.freed dm hm'
  · have hn : (freeDynmem cfg).numObjs = fun e => cfg.numObjs e - cfg.marked e :=
      funext (freeDynmem_numObjs hl h.classes)
    have hc : (freedVals cfg).Counts fun e => cfg.numObjs e - cfg.marked e := by
      refine hr.counts hl h.counts (fun e en mvec he ho α x l hlen => ?_) fun p c α x l hlen => ?_
      · have := length_opsOf_free h.counts x (e := e) (l := l) (by omega)
        omega
      · have := length_ptrmemOps_free h.counts x (n := cfg.entries.length) (p := p) (l := l)
          (by omega) (Nat.le_refl _)
        have hsum : cfg.sumTo p (fun e => cfg.numObjs e - cfg.marked e) cfg.entries.length +
            cfg.sumTo p cfg.marked cfg.entries.length =
            cfg.sumTo p cfg.numObjs cfg.entries.length := by
          rw [sumTo_add]
          exact sumTo_congr (fun _ => rfl) fun e _ => Nat.sub_add_cancel (marked_le cfg e)
        omega
    rw [hn]
    refine ⟨fun e en mvec he ho => ?_, hc.targets, hc.states⟩
    rw [freeDynmem_entries, hr.entry] at he
    obtain ⟨en', he', rfl⟩ := Option.map_eq_some_iff.mp he
    rw [freeDynmem_objs_of hl h.classes he' (vecOps_dynmem _)] at ho
    obtain ⟨mvec', ho', -⟩ := Option.map_eq_some_iff.mp ho
    refine hc.values e _ mvec' ?_ ((hr.objs _ en').trans ho')
    rw [hr.entry, he']
    rfl

end Removal

end UgTrain
