import UgTrain.MemMgmt
import UgTrain.Pointwise

/-!
# The objects of the classes

`objs` are the objects of a class that are not marked, each with its size. What the functions of
`memmgmt.cpp` do to them:

* `allocDynmemAddr_objs`: one object more.
* `clearObjs_objs`: the object with the address less, if there is one.
* `freeDynmem_objs`, `allocDynmem_objs`: nothing.

The last two do change entries and vectors, but not which class an entry belongs to (`SameRefs`)
nor which allocations a class takes (`SameObjs`).
-/

namespace UgTrain

/-- The objects of a class that are not marked. -/
def DynMemEntry.objs (dm : DynMemEntry) : List (Ptr × SizeT) :=
  (dm.vMaddr.zip dm.vMsize).filter (·.1 ≠ 0)

/-- The objects of all classes. -/
def allObjs (dynmems : List DynMemEntry) : List (Ptr × SizeT) := dynmems.flatMap (·.objs)

/-- An entry of the config belongs to the class. -/
def Refs (cfg : List CfgEntry) (d : Nat) : Prop := some d ∈ cfg.map (·.dynmem)

/-- The vectors of a class have the same length. -/
def DynMemEntry.Aligned (dm : DynMemEntry) : Prop := dm.vMaddr.length = dm.vMsize.length

/-! ## Finding a class -/

section Find

variable {dynmems : List DynMemEntry} {p : DynMemEntry → Bool} {cfg : List CfgEntry} {d : Nat}
  {dm : DynMemEntry}

theorem findDynmem_eq_some (h : findDynmem dynmems p cfg = some (d, dm)) :
    dynmems[d]? = some dm ∧ p dm = true ∧ Refs cfg d := by
  induction cfg with
  | nil => cases h
  | cons it cfg ih =>
    have hcons : Refs cfg d → Refs (it :: cfg) d := List.mem_cons_of_mem _
    rw [findDynmem] at h
    cases hit : it.dynmem.bind fun d => (dynmems[d]?).map (d, ·) with
    | none =>
      rw [hit] at h
      obtain ⟨h1, h2, h3⟩ := ih h
      exact ⟨h1, h2, hcons h3⟩
    | some x =>
      rw [hit] at h
      simp only at h
      split at h
      · rename_i hp
        cases h
        obtain ⟨d', hd', hx⟩ := Option.bind_eq_some_iff.mp hit
        obtain ⟨dm', hdm', heq⟩ := Option.map_eq_some_iff.mp hx
        cases heq
        exact ⟨hdm', hp, by simp [Refs, hd']⟩
      · obtain ⟨h1, h2, h3⟩ := ih h
        exact ⟨h1, h2, hcons h3⟩

theorem findDynmem_isSome :
    (findDynmem dynmems p cfg).isSome ↔ ∃ d dm, Refs cfg d ∧ dynmems[d]? = some dm ∧ p dm := by
  constructor
  · intro h
    obtain ⟨⟨d, dm⟩, h⟩ := Option.isSome_iff_exists.mp h
    obtain ⟨h1, h2, h3⟩ := findDynmem_eq_some h
    exact ⟨d, dm, h3, h1, h2⟩
  · rintro ⟨d, dm, hr, hd, hp⟩
    induction cfg with
    | nil => simp [Refs] at hr
    | cons it cfg ih =>
      rw [findDynmem]
      cases hit : it.dynmem.bind fun d => (dynmems[d]?).map (d, ·) with
      | none =>
        refine ih ?_
        rcases List.mem_cons.mp hr with heq | hr
        · have hit' : it.dynmem = some d := heq.symm
          rw [hit'] at hit
          simp [hd] at hit
        · exact hr
      | some x =>
        simp only
        split
        · rfl
        · rename_i hx
          refine ih ?_
          rcases List.mem_cons.mp hr with heq | hr
          · have hit' : it.dynmem = some d := heq.symm
            rw [hit'] at hit
            simp only [Option.bind_some, hd, Option.map_some, Option.some.injEq] at hit
            cases hit
            exact absurd hp hx
          · exact hr

end Find

/-! ## One class -/

section Class

variable {dm : DynMemEntry} {a : Ptr} {size : SizeT} {i : Nat}

theorem pushObj_objs (ha : dm.Aligned) (h0 : a ≠ 0) :
    (dm.pushObj a size).objs = dm.objs ++ [(a, size)] := by
  simp only [DynMemEntry.objs, DynMemEntry.pushObj]
  rw [List.zip_append ha, List.filter_append]
  congr 1
  exact List.filter_cons_of_pos (by simpa using h0)

/-- An object that is overwritten with the address 0 is no object any more. -/
theorem filter_set_zero {l : List (Ptr × SizeT)} {x : SizeT} (h : l[i]? = some (a, size))
    (h0 : a ≠ 0) :
    ((l.filter (·.1 ≠ 0) : List (Ptr × SizeT)) : Multiset (Ptr × SizeT)) =
      (a, size) ::ₘ ((l.set i (0, x)).filter (·.1 ≠ 0) : List (Ptr × SizeT)) := by
  induction l generalizing i with
  | nil => simp at h
  | cons y l ih =>
    cases i with
    | zero =>
      simp only [List.getElem?_cons_zero, Option.some.injEq] at h
      subst h
      rw [List.set_cons_zero, List.filter_cons_of_pos (by simpa using h0),
        List.filter_cons_of_neg (by simp)]
      rfl
    | succ i =>
      simp only [List.getElem?_cons_succ] at h
      simp only [List.set_cons_succ, List.filter_cons]
      split
      · rw [← Multiset.cons_coe, ih h, ← Multiset.cons_coe, Multiset.cons_swap]
      · exact ih h

theorem zip_set {l : List Ptr} {l' : List SizeT} {x : Ptr} {y : SizeT} :
    (l.set i x).zip (l'.set i y) = (l.zip l').set i (x, y) := by
  induction l generalizing l' i with
  | nil => simp
  | cons z l ih =>
    cases l' with
    | nil => simp
    | cons w l' =>
      cases i with
      | zero => simp
      | succ i => simp [ih]

theorem zip_eraseIdx {l : List Ptr} {l' : List SizeT} :
    (l.eraseIdx i).zip (l'.eraseIdx i) = (l.zip l').eraseIdx i := by
  induction l generalizing l' i with
  | nil => simp
  | cons z l ih =>
    cases l' with
    | nil => simp
    | cons w l' =>
      cases i with
      | zero => simp
      | succ i => simp [ih]

/-- The object `i` of a class. -/
theorem zip_getElem? (ha : dm.Aligned) (hi : dm.vMaddr[i]? = some a) :
    ∃ size, dm.vMsize[i]? = some size ∧ (dm.vMaddr.zip dm.vMsize)[i]? = some (a, size) := by
  have hlt := (List.getElem?_eq_some_iff.mp hi).1
  have hlt' : i < dm.vMsize.length := by rw [← ha]; exact hlt
  refine ⟨dm.vMsize[i], List.getElem?_eq_getElem hlt', ?_⟩
  rw [List.getElem?_zip_eq_some]
  exact ⟨hi, List.getElem?_eq_getElem hlt'⟩

theorem clearObj_objs (ha : dm.Aligned) (hi : dm.vMaddr[i]? = some a) (h0 : a ≠ 0) :
    ∃ size, (dm.objs : Multiset (Ptr × SizeT)) = (a, size) ::ₘ (dm.clearObj i).objs := by
  obtain ⟨size, -, hz⟩ := zip_getElem? ha hi
  refine ⟨size, ?_⟩
  simp only [DynMemEntry.objs, DynMemEntry.clearObj]
  rw [zip_set]
  exact filter_set_zero hz h0

theorem kickObj_objs (ha : dm.Aligned) (hi : dm.vMaddr[i]? = some a) (h0 : a ≠ 0) :
    ∃ size, (dm.objs : Multiset (Ptr × SizeT)) = (a, size) ::ₘ (dm.kickObj i).objs := by
  obtain ⟨size, hs, hz⟩ := zip_getElem? ha hi
  refine ⟨size, ?_⟩
  have hset : dm.vMsize.set i size = dm.vMsize := by
    obtain ⟨hlt, heq⟩ := List.getElem?_eq_some_iff.mp hs
    rw [← heq, List.set_getElem_self]
  simp only [DynMemEntry.objs, DynMemEntry.kickObj]
  conv => rhs; rw [← hset]
  rw [zip_set]
  exact filter_set_zero hz h0

theorem kickObj_zero (hi : dm.vMaddr[i]? = some 0) : dm.kickObj i = dm := by
  obtain ⟨hlt, heq⟩ := List.getElem?_eq_some_iff.mp hi
  unfold DynMemEntry.kickObj
  rw [← heq, List.set_getElem_self]

/-- Marked objects are removed from both vectors, the others stay in their order. -/
theorem eraseObjs_spec (mvec : List Ptr) (svec : List SizeT) (k : Nat)
    (hl : mvec.length = svec.length) :
    (eraseObjs mvec svec k).1.length = (eraseObjs mvec svec k).2.length ∧
      ((eraseObjs mvec svec k).1.zip (eraseObjs mvec svec k).2).filter (·.1 ≠ 0) =
        (mvec.zip svec).filter (·.1 ≠ 0) := by
  induction mvec, svec, k using eraseObjs.induct with
  | case1 mvec svec k h h0 ih =>
    rw [eraseObjs, dif_pos h, if_pos h0]
    obtain ⟨h1, h2⟩ := ih (by
      rw [List.length_eraseIdx_of_lt h, List.length_eraseIdx_of_lt (by omega), hl])
    refine ⟨h1, h2.trans ?_⟩
    have hk : k < (mvec.zip svec).length := by simp; omega
    have hget : (mvec.zip svec)[k].1 = 0 := by rw [List.getElem_zip]; exact h0
    conv => rhs; rw [← List.take_append_drop k (mvec.zip svec), List.drop_eq_getElem_cons hk]
    rw [zip_eraseIdx, List.eraseIdx_eq_take_drop_succ, List.filter_append, List.filter_append,
      List.filter_cons_of_neg (by rw [hget]; simp)]
  | case2 mvec svec k h h0 ih =>
    rw [eraseObjs, dif_pos h, if_neg h0]
    exact ih hl
  | case3 mvec svec k h =>
    rw [eraseObjs, dif_neg h]
    exact ⟨hl, rfl⟩

/-- The class keeps its objects, and which allocations it takes. -/
structure SameObjs (dm dm' : DynMemEntry) : Prop where
  objs : dm.Aligned → dm'.objs = dm.objs
  aligned : dm.Aligned → dm'.Aligned
  accepts : ∀ codeAddr, dm'.accepts codeAddr = dm.accepts codeAddr

theorem SameObjs.refl (dm : DynMemEntry) : SameObjs dm dm :=
  ⟨fun _ => rfl, id, fun _ => rfl⟩

theorem SameObjs.trans {dm₁ dm₂ dm₃ : DynMemEntry} (h : SameObjs dm₁ dm₂)
    (h' : SameObjs dm₂ dm₃) : SameObjs dm₁ dm₃ :=
  ⟨fun ha => (h'.objs (h.aligned ha)).trans (h.objs ha), fun ha => h'.aligned (h.aligned ha),
    fun c => (h'.accepts c).trans (h.accepts c)⟩

theorem sameObjs_eraseObjs (dm : DynMemEntry) : SameObjs dm dm.eraseObjs :=
  ⟨fun ha => (eraseObjs_spec _ _ 0 ha).2, fun ha => (eraseObjs_spec _ _ 0 ha).1, fun _ => rfl⟩

end Class

/-! ## All classes -/

section Classes

variable {dynmems dynmems' : List DynMemEntry} {cfg : List CfgEntry} {d : Nat}
  {dm dm' : DynMemEntry} {a : Ptr} {size : SizeT} {codeAddr : Ptr}

theorem allObjs_append (l l' : List DynMemEntry) : allObjs (l ++ l') = allObjs l ++ allObjs l' :=
  List.flatMap_append

/-- One class exchanged. -/
theorem allObjs_set (hd : dynmems[d]? = some dm) (dm' : DynMemEntry) :
    (allObjs (dynmems.set d dm') : Multiset (Ptr × SizeT)) + dm.objs =
      allObjs dynmems + dm'.objs := by
  obtain ⟨hlt, heq⟩ := List.getElem?_eq_some_iff.mp hd
  have hsplit : dynmems = dynmems.take d ++ dm :: dynmems.drop (d + 1) := by
    rw [← heq, ← List.drop_eq_getElem_cons hlt, List.take_append_drop]
  have hset : dynmems.set d dm' = dynmems.take d ++ dm' :: dynmems.drop (d + 1) :=
    List.set_eq_take_append_cons_drop.trans (if_pos hlt)
  have hcons : ∀ (x : DynMemEntry) l, allObjs (x :: l) = x.objs ++ allObjs l := fun _ _ => rfl
  rw [hset]
  conv => rhs; rw [hsplit]
  simp only [allObjs_append, hcons, ← Multiset.coe_add]
  abel

theorem mem_set {l : List DynMemEntry} {x : DynMemEntry} {P : DynMemEntry → Prop}
    (h : ∀ y ∈ l, P y) (hx : P x) : ∀ y ∈ l.set d x, P y := by
  intro y hy
  rcases List.mem_or_eq_of_mem_set hy with hy | rfl
  · exact h y hy
  · exact hx

/-- Objects that are in no class of an entry are in none. -/
theorem mem_allObjs {x : Ptr × SizeT} :
    x ∈ allObjs dynmems ↔ ∃ (d : Nat) (dm : DynMemEntry), dynmems[d]? = some dm ∧ x ∈ dm.objs := by
  simp only [allObjs, List.mem_flatMap]
  constructor
  · rintro ⟨dm, hdm, hx⟩
    obtain ⟨d, hd⟩ := List.mem_iff_getElem?.mp hdm
    exact ⟨d, dm, hd, hx⟩
  · rintro ⟨d, dm, hd, hx⟩
    exact ⟨dm, List.mem_of_getElem? hd, hx⟩

/-- What the runs rely on: the vectors of each class have the same length, and only a class of an
entry has objects. -/
structure ObjsOk (cfg : List CfgEntry) (dynmems : List DynMemEntry) : Prop where
  aligned : ∀ dm ∈ dynmems, dm.Aligned
  refs : ∀ d dm, dynmems[d]? = some dm → dm.objs ≠ [] → Refs cfg d

/-- An allocation from the code address finds a class. -/
def Accepted (cfg : List CfgEntry) (dynmems : List DynMemEntry) (codeAddr : Ptr) : Prop :=
  (findDynmem dynmems (·.accepts codeAddr) cfg).isSome

/-- A class exchanged by one that takes the same allocations. -/
theorem accepted_set (hd : dynmems[d]? = some dm) (h : ∀ c, dm'.accepts c = dm.accepts c) :
    Accepted cfg (dynmems.set d dm') codeAddr ↔ Accepted cfg dynmems codeAddr := by
  have hlt := (List.getElem?_eq_some_iff.mp hd).1
  unfold Accepted
  rw [findDynmem_isSome, findDynmem_isSome]
  constructor
  · rintro ⟨e, x, hr, he, hx⟩
    by_cases hde : d = e
    · subst hde
      rw [List.getElem?_set_self hlt] at he
      cases he
      exact ⟨d, dm, hr, hd, by rw [← h]; exact hx⟩
    · rw [List.getElem?_set_ne hde] at he
      exact ⟨e, x, hr, he, hx⟩
  · rintro ⟨e, x, hr, he, hx⟩
    by_cases hde : d = e
    · subst hde
      rw [hd] at he
      cases he
      exact ⟨d, dm', hr, List.getElem?_set_self hlt, by rw [h]; exact hx⟩
    · exact ⟨e, x, hr, by rw [List.getElem?_set_ne hde]; exact he, hx⟩

theorem objsOk_set (h : ObjsOk cfg dynmems) (hd : dynmems[d]? = some dm) (ha : dm'.Aligned)
    (hr : dm'.objs ≠ [] → Refs cfg d) : ObjsOk cfg (dynmems.set d dm') := by
  refine ⟨mem_set h.aligned ha, fun e x he hx => ?_⟩
  have hlt := (List.getElem?_eq_some_iff.mp hd).1
  by_cases hde : d = e
  · subst hde
    rw [List.getElem?_set_self hlt] at he
    cases he
    exact hr hx
  · rw [List.getElem?_set_ne hde] at he
    exact h.refs e x he hx

/-- **An allocation from a known code address is one object more.** -/
theorem allocDynmemAddr_objs (size : SizeT) (h : ObjsOk cfg dynmems)
    (hacc : Accepted cfg dynmems codeAddr) (h0 : a ≠ 0) :
    (allObjs (allocDynmemAddr cfg a size codeAddr dynmems) : Multiset (Ptr × SizeT)) =
        allObjs dynmems + {(a, size)} ∧
      ObjsOk cfg (allocDynmemAddr cfg a size codeAddr dynmems) ∧
      ∀ c, Accepted cfg (allocDynmemAddr cfg a size codeAddr dynmems) c ↔
        Accepted cfg dynmems c := by
  obtain ⟨⟨d, dm⟩, hf⟩ := Option.isSome_iff_exists.mp hacc
  obtain ⟨hd, -, hr⟩ := findDynmem_eq_some hf
  have ha := h.aligned dm (List.mem_of_getElem? hd)
  have heq : allocDynmemAddr cfg a size codeAddr dynmems = dynmems.set d (dm.pushObj a size) := by
    rw [allocDynmemAddr, hf]
  rw [heq]
  refine ⟨?_, objsOk_set h hd ?_ fun _ => hr, fun c => accepted_set hd fun _ => rfl⟩
  · have hset := allObjs_set hd (dm.pushObj a size)
    rw [pushObj_objs ha h0, ← Multiset.coe_add, ← add_assoc, add_right_comm] at hset
    exact add_right_cancel hset
  · simp only [DynMemEntry.Aligned, DynMemEntry.pushObj, List.length_append] at ha ⊢
    rw [ha]; rfl

/-- **A free removes the object with the address**, if there is one. -/
theorem clearObjs_objs (h : ObjsOk cfg dynmems) (h0 : a ≠ 0) :
    ((∃ size, (allObjs dynmems : Multiset (Ptr × SizeT)) =
        (a, size) ::ₘ allObjs (clearObjs cfg a dynmems)) ∨
      (∀ x ∈ allObjs dynmems, x.1 ≠ a) ∧ clearObjs cfg a dynmems = dynmems) ∧
      ObjsOk cfg (clearObjs cfg a dynmems) ∧
      ∀ c, Accepted cfg (clearObjs cfg a dynmems) c ↔ Accepted cfg dynmems c := by
  unfold clearObjs
  cases hf : findDynmem dynmems (fun dm => (findAddrIdx dm.vMaddr a).isSome) cfg with
  | none =>
    refine ⟨.inr ⟨fun x hx hxa => ?_, rfl⟩, h, fun _ => Iff.rfl⟩
    obtain ⟨d, dm, hd, hx⟩ := mem_allObjs.mp hx
    have hr := h.refs d dm hd (List.ne_nil_of_mem hx)
    have hmem : x.1 ∈ dm.vMaddr := (List.of_mem_zip (List.mem_filter.mp hx).1).1
    have hsome : (findDynmem dynmems (fun dm => (findAddrIdx dm.vMaddr a).isSome) cfg).isSome := by
      refine findDynmem_isSome.mpr ⟨d, dm, hr, hd, ?_⟩
      rw [findAddrIdx, List.findIdx?_isSome, List.any_eq_true]
      exact ⟨x.1, hmem, by simpa using hxa⟩
    rw [hf] at hsome
    cases hsome
  | some r =>
    obtain ⟨d, dm⟩ := r
    obtain ⟨hd, hp, hr⟩ := findDynmem_eq_some hf
    obtain ⟨i, hi⟩ := Option.isSome_iff_exists.mp hp
    have ha := h.aligned dm (List.mem_of_getElem? hd)
    have hget : dm.vMaddr[i]? = some a := by
      obtain ⟨hlt, hia, -⟩ := List.findIdx?_eq_some_iff_getElem.mp hi
      rw [List.getElem?_eq_getElem hlt]
      simpa using hia
    simp only [hi]
    refine ⟨.inl ?_, objsOk_set h hd ?_ fun _ => hr, fun c => accepted_set hd fun _ => rfl⟩
    · obtain ⟨size, hobj⟩ := clearObj_objs ha hget h0
      have hset := allObjs_set hd (dm.clearObj i)
      rw [hobj, Multiset.add_cons, ← Multiset.cons_add] at hset
      exact ⟨size, (add_right_cancel hset).symm⟩
    · simpa [DynMemEntry.Aligned, DynMemEntry.clearObj] using ha

/-- An object check removes the object that it kicks. -/
theorem kickObj_allObjs (h : ObjsOk cfg dynmems) (hd : dynmems[d]? = some dm) {i : Nat}
    (hi : dm.vMaddr[i]? = some a) (h0 : a ≠ 0) :
    (∃ size, (allObjs dynmems : Multiset (Ptr × SizeT)) =
        (a, size) ::ₘ allObjs (dynmems.set d (dm.kickObj i))) ∧
      ObjsOk cfg (dynmems.set d (dm.kickObj i)) ∧
      ∀ c, Accepted cfg (dynmems.set d (dm.kickObj i)) c ↔ Accepted cfg dynmems c := by
  have ha := h.aligned dm (List.mem_of_getElem? hd)
  obtain ⟨size, hobj⟩ := kickObj_objs ha hi h0
  have hne : dm.objs ≠ [] := by
    intro he
    rw [he] at hobj
    exact absurd hobj.symm (Multiset.cons_ne_zero)
  refine ⟨⟨size, ?_⟩, objsOk_set h hd ?_ fun _ => h.refs d dm hd hne,
    fun c => accepted_set hd fun _ => rfl⟩
  · have hset := allObjs_set hd (dm.kickObj i)
    rw [hobj, Multiset.add_cons, ← Multiset.cons_add] at hset
    exact (add_right_cancel hset).symm
  · simpa [DynMemEntry.Aligned, DynMemEntry.kickObj] using ha

theorem sameObjs_allObjs (h : List.Forall₂ SameObjs dynmems dynmems')
    (ha : ∀ dm ∈ dynmems, dm.Aligned) : allObjs dynmems' = allObjs dynmems := by
  induction h with
  | nil => rfl
  | cons hr _ ih =>
    have hcons : ∀ (x : DynMemEntry) l, allObjs (x :: l) = x.objs ++ allObjs l := fun _ _ => rfl
    rw [hcons, hcons, hr.objs (ha _ (by simp)), ih fun dm hdm => ha dm (by simp [hdm])]

theorem sameObjs_ok (h : List.Forall₂ SameObjs dynmems dynmems') (hok : ObjsOk cfg dynmems) :
    ObjsOk cfg dynmems' := by
  constructor
  · intro dm' hdm'
    obtain ⟨d, hd⟩ := List.mem_iff_getElem?.mp hdm'
    obtain ⟨dm, hdm, hr⟩ := Pointwise.getElem? h hd
    exact hr.aligned (hok.aligned dm (List.mem_of_getElem? hdm))
  · intro d dm' hd hne
    obtain ⟨dm, hdm, hr⟩ := Pointwise.getElem? h hd
    rw [hr.objs (hok.aligned dm (List.mem_of_getElem? hdm))] at hne
    exact hok.refs d dm hdm hne

theorem sameObjs_accepted (h : List.Forall₂ SameObjs dynmems dynmems') :
    Accepted cfg dynmems' codeAddr ↔ Accepted cfg dynmems codeAddr := by
  unfold Accepted
  rw [findDynmem_isSome, findDynmem_isSome]
  constructor
  · rintro ⟨d, dm', hr, hd, hacc⟩
    obtain ⟨dm, hdm, hs⟩ := Pointwise.getElem? h hd
    exact ⟨d, dm, hr, hdm, by rw [← hs.accepts]; exact hacc⟩
  · rintro ⟨d, dm, hr, hd, hacc⟩
    obtain ⟨dm', hdm, hs⟩ := Pointwise.getElem? h.flip hd
    exact ⟨d, dm', hr, hdm, by rw [hs.accepts]; exact hacc⟩

theorem sameObjs_freeObjs (dynmems : List DynMemEntry) (old : Option Nat) (cfg : List CfgEntry) :
    List.Forall₂ SameObjs dynmems (freeObjs dynmems old cfg) := by
  induction cfg generalizing dynmems old with
  | nil => exact Pointwise.refl .refl _
  | cons en cfg ih =>
    rw [freeObjs]
    split
    · exact ih _ _
    · refine Pointwise.trans (fun _ _ _ => .trans) ?_ (ih _ _)
      cases en.dynmem with
      | none => exact Pointwise.refl .refl _
      | some d => exact Pointwise.modify .refl fun dm _ => sameObjs_eraseObjs dm

end Classes

/-! ## The values of objects -/

/-- The classes are the same, and each entry belongs to the same class. -/
structure SameRefs (cfg cfg' : CfgMem) : Prop where
  dynmems : cfg'.dynmems = cfg.dynmems
  refs : cfg'.entries.map (·.dynmem) = cfg.entries.map (·.dynmem)

section Values

variable {cfg cfg' cfg'' : CfgMem}

theorem SameRefs.refl (cfg : CfgMem) : SameRefs cfg cfg := ⟨rfl, rfl⟩

theorem SameRefs.trans (h : SameRefs cfg cfg') (h' : SameRefs cfg' cfg'') : SameRefs cfg cfg'' :=
  ⟨h'.dynmems.trans h.dynmems, h'.refs.trans h.refs⟩

theorem map_dynmem_modify {g : CfgEntry → CfgEntry} (hg : ∀ en, (g en).dynmem = en.dynmem)
    (es : List CfgEntry) (e : Nat) :
    (es.modify e g).map (·.dynmem) = es.map (·.dynmem) := by
  induction es generalizing e with
  | nil => simp
  | cons en es ih =>
    cases e with
    | zero => simp [hg]
    | succ e => simp [ih e]

theorem sameRefs_modify {g : CfgEntry → CfgEntry} (hg : ∀ en, (g en).dynmem = en.dynmem)
    (cfg : CfgMem) (e : Nat) : SameRefs cfg { cfg with entries := cfg.entries.modify e g } :=
  ⟨rfl, map_dynmem_modify hg _ _⟩

theorem sameRefs_modifyPtrmem {g : CfgEntry → CfgEntry} (hg : ∀ en, (g en).dynmem = en.dynmem)
    (cfg : CfgMem) (ptrtgt : Option Nat) (f : PtrMemEntry → PtrMemEntry) :
    SameRefs cfg (cfg.modifyPtrmem ptrtgt f g) := by
  have hfold : ∀ (l : List Nat) (es : List CfgEntry),
      (l.foldl (fun es e => es.modify e g) es).map (·.dynmem) = es.map (·.dynmem) := by
    intro l
    induction l with
    | nil => intro es; rfl
    | cons e l ih => intro es; rw [List.foldl_cons, ih, map_dynmem_modify hg]
  unfold CfgMem.modifyPtrmem
  split
  · exact .refl cfg
  · exact ⟨rfl, hfold _ _⟩

theorem sameRefs_allocVals (e : Nat) (n memIdx : Nat) (cfg : CfgMem) :
    SameRefs cfg (allocVals e cfg memIdx n) := by
  induction n generalizing cfg memIdx with
  | zero => exact .refl cfg
  | succ n ih =>
    rw [allocVals]
    split
    · exact .refl cfg
    · refine SameRefs.trans ?_ (ih _ _)
      split
      · exact (sameRefs_modify (g := CfgEntry.pushVal) (fun _ => rfl) cfg e).trans
          (sameRefs_modifyPtrmem (g := CfgEntry.pushVal) (fun _ => rfl) _ _ _)
      · exact .refl cfg

theorem sameRefs_freeVals (e : Nat) (mvec : List Ptr) (ovIdx : Nat) (cfg : CfgMem) :
    SameRefs cfg (freeVals e cfg ovIdx mvec) := by
  induction mvec generalizing cfg ovIdx with
  | nil => exact .refl cfg
  | cons m mvec ih =>
    rw [freeVals]
    split
    · exact .refl cfg
    · split
      · split
        · exact ((sameRefs_modify (g := (·.eraseVal ovIdx)) (fun _ => rfl) cfg e).trans
            (sameRefs_modifyPtrmem (g := (·.eraseVal ovIdx)) (fun _ => rfl) _ _ _)).trans (ih _ _)
        · exact ih _ _
      · exact .refl cfg

theorem sameRefs_foldl {f : CfgMem → Nat → CfgMem} (hf : ∀ cfg e, SameRefs cfg (f cfg e))
    (l : List Nat) (cfg : CfgMem) : SameRefs cfg (l.foldl f cfg) := by
  induction l generalizing cfg with
  | nil => exact .refl cfg
  | cons e l ih => exact (hf cfg e).trans (ih _)

/-- **Room for the values of new objects** changes no object. -/
theorem allocDynmem_sameRefs (cfg : CfgMem) : SameRefs cfg (allocDynmem cfg) := by
  refine sameRefs_foldl (fun cfg e => ?_) _ cfg
  unfold allocEntry
  split
  · exact .refl cfg
  · exact sameRefs_allocVals _ _ _ _

/-- **Removing the marked objects** keeps all others. -/
theorem freeDynmem_objs (cfg : CfgMem) :
    (freeDynmem cfg).entries.map (·.dynmem) = cfg.entries.map (·.dynmem) ∧
      List.Forall₂ SameObjs cfg.dynmems (freeDynmem cfg).dynmems := by
  have h : SameRefs cfg ((List.range cfg.entries.length).foldl freeEntry cfg) := by
    refine sameRefs_foldl (fun cfg e => ?_) _ cfg
    unfold freeEntry
    split
    · exact .refl cfg
    · exact sameRefs_freeVals _ _ _ _
  refine ⟨h.refs, ?_⟩
  have hs := sameObjs_freeObjs ((List.range cfg.entries.length).foldl freeEntry cfg).dynmems none
    ((List.range cfg.entries.length).foldl freeEntry cfg).entries
  exact h.dynmems ▸ hs

end Values

end UgTrain
