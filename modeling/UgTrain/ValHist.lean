import UgTrain.Cycle

/-!
# What was read from an object

`ValHist` is what an entry has seen of one object: the wish value that the object started with, the
values that were read from it since, and those that were followed. `recordHist` goes along with the
phases of the main loop, so that each object keeps its history while others come and go.

* `run_extreme`: the wish value of a `max` or `min` entry is the extreme value of this history.
* `follow_settled`: a pointer is followed to the value that was also the last one before that is not
  `NULL`, and a pointer that is marked with `once` only once.
-/

namespace UgTrain

open CLib

/-! ## Histories -/

/-- The value that an event reads from the object `i` for the entry `e`. -/
def ProcEvent.valueOf? (e i : Nat) : ProcEvent → Option Value
  | .read e' slot buf => if e' = e ∧ slot = some i then some buf else none
  | .pointer e' i' buf _ => if e' = e ∧ i' = i then some buf else none
  | _ => none

def readsOf (e i : Nat) (evs : List ProcEvent) : List Value := evs.filterMap (·.valueOf? e i)

def ProcEvent.followOf? (e i : Nat) : ProcEvent → Option Value
  | .follow e' i' buf => if e' = e ∧ i' = i then some buf else none
  | _ => none

def followsOf (e i : Nat) (evs : List ProcEvent) : List Value := evs.filterMap (·.followOf? e i)

/-- The wish value of an object when it was new, the values that were read from it, and those of them
that were followed as pointers. -/
structure ValHist where
  start : Value
  seen : List Value
  followed : List Value
  deriving DecidableEq, Repr

def ValHist.add (e i : Nat) (evs : List ProcEvent) (h : ValHist) : ValHist :=
  { h with seen := h.seen ++ readsOf e i evs, followed := h.followed ++ followsOf e i evs }

/-- The wish value that a new object of the class gets. -/
def CfgMem.template (cfg : CfgMem) (e : Nat) : Value := (cfg.entries[e]?).elim 0 (·.vals.value)

/-- The histories of the objects of an entry, one phase further. -/
def Trainer.recordHist (e : Nat) (s s' : Trainer) (hists : List ValHist) : List ValHist :=
  match s.phase with
  | .free | .freeKicked => if s.removes then keepObjs ((s.opt.rows e).map (·.1)) hists else hists
  | .mallocs => hists ++ List.replicate ((s'.opt.rows e).length - (s.opt.rows e).length)
      ⟨s.opt.template e, [], []⟩
  | .process => hists.mapIdx fun i h => h.add e i s'.events
  | _ => hists

/-- A phase, with the histories of an entry. -/
def Trainer.stepHist (chunk e : Nat) (x : Trainer × List ValHist) (i : LoopInput) :
    Except Fault (Trainer × List ValHist) := do
  let s' ← x.1.step chunk i
  return (s', x.1.recordHist e s' x.2)

def ObjRow.old (r : ObjRow) : Value := r.2.2.1

def ObjRow.wish (r : ObjRow) : Value := r.2.2.2.1

/-- The objects of an entry with their old values and their wish values. -/
def CfgMem.valRows (cfg : CfgMem) (e : Nat) : List (Ptr × Value × Value) :=
  (cfg.rows e).map fun r => (r.1, r.old, r.wish)

/-- Two lists that stand beside the same objects. -/
def zipRows {α β γ : Type} (f : α → β → γ) (rows : List (Ptr × α)) (rows' : List (Ptr × β)) :
    List (Ptr × γ) :=
  List.zipWith (fun r r' => (r.1, f r.2 r'.2)) rows rows'

/-- The objects of a pointer with its old values and its states. -/
def CfgMem.ptrRows (cfg : CfgMem) (e : Nat) : List (Ptr × Value × PtrState) :=
  zipRows (fun v x => (v.1, x.1)) (cfg.valRows e) (cfg.stateRows e)

section Rows

variable {α β γ : Type} {f : α → β → γ} {rows rows₁ : List (Ptr × α)} {rows' rows₁' : List (Ptr × β)}

theorem zipRows_addr (h : rows.map (·.1) = rows'.map (·.1)) :
    (zipRows f rows rows').map (·.1) = rows.map (·.1) := by
  induction rows generalizing rows' with
  | nil => rfl
  | cons r rows ih =>
    cases rows' with
    | nil => cases h
    | cons r' rows' =>
      obtain ⟨-, h⟩ := List.cons.inj h
      exact congrArg (r.1 :: ·) (ih h)

theorem zipRows_filter (h : rows.map (·.1) = rows'.map (·.1)) :
    (zipRows f rows rows').filter (·.1 ≠ 0) =
      zipRows f (rows.filter (·.1 ≠ 0)) (rows'.filter (·.1 ≠ 0)) := by
  induction rows generalizing rows' with
  | nil => rfl
  | cons r rows ih =>
    cases rows' with
    | nil => cases h
    | cons r' rows' =>
      obtain ⟨hr, h⟩ := List.cons.inj h
      have hr : r.1 = r'.1 := hr
      have hcons : zipRows f (r :: rows) (r' :: rows') = (r.1, f r.2 r'.2) :: zipRows f rows rows' := rfl
      rw [hcons, List.filter_cons, List.filter_cons, List.filter_cons, ih h, ← hr]
      split <;> rfl

theorem zipRows_forall₂ {R : Ptr × α → Ptr × α → Prop} {R' : Ptr × β → Ptr × β → Prop}
    {Q : Ptr × γ → Ptr × γ → Prop} (hr : List.Forall₂ R rows rows₁)
    (hr' : List.Forall₂ R' rows' rows₁')
    (hQ : ∀ a b a' b', R a b → R' a' b' → Q (a.1, f a.2 a'.2) (b.1, f b.2 b'.2)) :
    List.Forall₂ Q (zipRows f rows rows') (zipRows f rows₁ rows₁') := by
  induction hr generalizing rows' rows₁' with
  | nil => exact .nil
  | cons h _ ih =>
    cases hr' with
    | nil => exact .nil
    | cons h' hrest => exact .cons (hQ _ _ _ _ h h') (ih hrest)

/-- A phase does the same to both lists. -/
theorem RowsStep.zip {phase : Phase} {removes : Bool} {new : α} {new' : β}
    (h : RowsStep phase removes new rows rows₁) (h' : RowsStep phase removes new' rows' rows₁')
    (haddr : rows.map (·.1) = rows'.map (·.1)) (haddr₁ : rows₁.map (·.1) = rows₁'.map (·.1)) :
    RowsStep phase removes (f new new') (zipRows f rows rows') (zipRows f rows₁ rows₁') := by
  cases phase with
  | free | freeKicked =>
    change rows₁ = _ at h
    change rows₁' = _ at h'
    show zipRows f rows₁ rows₁' = _
    rw [h, h', zipRows_filter haddr]
    split <;> rfl
  | mallocs =>
    obtain ⟨ms, rfl⟩ := h
    obtain ⟨ms', rfl⟩ := h'
    have hlen : rows.length = rows'.length := by simpa using congrArg List.length haddr
    rw [List.map_append, List.map_append, haddr] at haddr₁
    have hms := List.append_cancel_left haddr₁
    simp only [List.map_map, Function.comp_def, List.map_id_fun', id_eq] at hms
    refine ⟨ms, ?_⟩
    rw [hms, zipRows, List.zipWith_append hlen]
    refine congrArg (zipRows f rows rows' ++ ·) ?_
    rw [List.zipWith_map_left, List.zipWith_map_right, List.zipWith_self]
  | process => exact zipRows_forall₂ h h' fun _ _ _ _ ha _ => ha
  | input | fifo | attach | fifoAgain | detach | late | output | stopped =>
    exact zipRows_forall₂ h h' fun _ _ _ _ ha hb => ⟨ha.1, by rw [ha.2, hb.2]⟩

end Rows

section Hist

variable {chunk e : Nat} {s s' : Trainer} {i : LoopInput} {hists : List ValHist} {α : Type}

theorem forall₂_keepObjs {P : α → ValHist → Prop} {rows : List (Ptr × α)}
    (h : List.Forall₂ (fun r hist => P r.2 hist) rows hists) :
    List.Forall₂ (fun r hist => P r.2 hist) (rows.filter (·.1 ≠ 0)) (keepObjs (rows.map (·.1)) hists) := by
  induction h with
  | nil => exact .nil
  | @cons r x rows l hr hrest ih =>
    rw [List.map_cons, keepObjs_cons, List.filter_cons]
    by_cases hm : r.1 = 0
    · rw [if_pos hm, if_neg (by simpa using hm)]
      exact ih
    · rw [if_neg hm, if_pos (by simpa using hm)]
      exact .cons hr ih

/-- **A phase keeps what relates the objects to their histories**, if new objects have it and the
processing keeps it. -/
theorem recordHist_forall₂ {P : α → ValHist → Prop} {new : α} {rows rows' : List (Ptr × α)}
    (hstep : RowsStep s.phase s.removes new rows rows')
    (haddr : rows.map (·.1) = (s.opt.rows e).map (·.1))
    (haddr' : rows'.map (·.1) = (s'.opt.rows e).map (·.1))
    (hP : List.Forall₂ (fun r hist => P r.2 hist) rows hists) (hnew : P new ⟨s.opt.template e, [], []⟩)
    (hproc : s.phase = .process → ∀ k r r' hist, rows[k]? = some r → rows'[k]? = some r' →
      P r.2 hist → P r'.2 (hist.add e k s'.events)) :
    List.Forall₂ (fun r hist => P r.2 hist) rows' (s.recordHist e s' hists) := by
  have hlen : rows.length = (s.opt.rows e).length := by simpa using congrArg List.length haddr
  have hlen' : rows'.length = (s'.opt.rows e).length := by simpa using congrArg List.length haddr'
  have hfree : ∀ {rows' : List (Ptr × α)},
      rows' = (if s.removes then rows.filter (·.1 ≠ 0) else rows) →
      List.Forall₂ (fun r hist => P r.2 hist) rows'
        (if s.removes then keepObjs ((s.opt.rows e).map (·.1)) hists else hists) := by
    rintro rows' rfl
    split
    · rw [← haddr]
      exact forall₂_keepObjs hP
    · exact hP
  unfold RowsStep at hstep
  unfold Trainer.recordHist
  cases hp : s.phase with
  | free =>
    rw [hp] at hstep
    exact hfree hstep
  | freeKicked =>
    rw [hp] at hstep
    exact hfree hstep
  | mallocs =>
    rw [hp] at hstep
    obtain ⟨ms, rfl⟩ := hstep
    rw [List.length_append, List.length_map] at hlen'
    rw [← hlen', ← hlen, Nat.add_sub_cancel_left]
    refine List.rel_append hP (List.forall₂_iff_get.mpr ⟨by simp, fun k hk hk' => ?_⟩)
    simp only [List.get_eq_getElem, List.getElem_map, List.getElem_replicate]
    exact hnew
  | process =>
    rw [hp] at hstep
    refine List.forall₂_iff_get.mpr ⟨?_, fun k hk hk' => ?_⟩
    · rw [List.length_mapIdx, ← hstep.length_eq]
      exact hP.length_eq
    · have hk₀ : k < rows.length := hstep.length_eq ▸ hk
      have hkh : k < hists.length := hP.length_eq ▸ hk₀
      simp only [List.get_eq_getElem, List.getElem_mapIdx]
      exact hproc hp k _ _ _ (List.getElem?_eq_getElem hk₀) (List.getElem?_eq_getElem hk)
        (hP.get hk₀ hkh)
  | input | fifo | attach | fifoAgain | detach | late | output | stopped =>
    rw [hp] at hstep
    refine List.forall₂_iff_get.mpr ⟨hstep.length_eq.symm.trans hP.length_eq, fun k hk hk' => ?_⟩
    have hk₀ : k < rows.length := hstep.length_eq ▸ hk
    rw [(hstep.get hk₀ hk).2]
    exact hP.get hk₀ hk'

/-- **Each phase** does to the values what it does to the objects. -/
theorem valRows_step (h : s.step chunk i = .ok s') (hl : s.opt.Linked) (ha : s.opt.Aligned) :
    RowsStep s.phase s.removes (0, s.opt.template e) (s.opt.valRows e) (s'.opt.valRows e) := by
  have hrow := step_rows h hl ha e
  have hfilter : ∀ rows : List ObjRow, (rows.filter (·.1 ≠ 0)).map (fun r : ObjRow => (r.1, r.old, r.wish)) =
      (rows.map fun r : ObjRow => (r.1, r.old, r.wish)).filter (·.1 ≠ 0) := by
    intro rows
    rw [List.filter_map]
    rfl
  unfold Trainer.RowStep at hrow
  unfold RowsStep Trainer.removes CfgMem.valRows
  cases hp : s.phase with
  | free =>
    rw [hp] at hrow
    simp only at hrow ⊢
    rw [hrow]
    by_cases hrem : s.cfgAct = [] ∨ s.pureStatmem
    · rw [if_pos hrem]
      rcases hrem with h0 | h0 <;> simp [h0]
    · rw [if_neg hrem, hfilter]
      rw [not_or] at hrem
      simp [hrem.1, hrem.2]
  | freeKicked =>
    rw [hp] at hrow
    simp only at hrow ⊢
    rw [hrow]
    by_cases hpure : s.pureStatmem
    · simp [hpure]
    · rw [if_neg hpure, hfilter]
      simp [hpure]
  | mallocs =>
    rw [hp] at hrow
    simp only at hrow ⊢
    cases he : s.opt.entries[e]? with
    | none =>
      have he' : s'.opt.entries[e]? = none := by
        have hlen := congrArg List.length (step_fixed h hl).entries
        rw [List.length_map, List.length_map] at hlen
        rw [List.getElem?_eq_none_iff] at he ⊢
        omega
      exact ⟨[], by rw [rows_none he', rows_none he]; rfl⟩
    | some en =>
      obtain ⟨objs, hobjs⟩ := hrow en he
      refine ⟨objs.map (·.1), ?_⟩
      rw [hobjs, List.map_append, List.map_map, List.map_map, CfgMem.template, he]
      rfl
  | process =>
    rw [hp] at hrow
    refine List.forall₂_map_left_iff.mpr (List.forall₂_map_right_iff.mpr ?_)
    exact hrow.imp fun r r' hr => hr.1
  | input | fifo | attach | fifoAgain | detach | late | output | stopped =>
    rw [hp] at hrow
    refine List.forall₂_map_left_iff.mpr (List.forall₂_map_right_iff.mpr ?_)
    refine hrow.imp fun r r' hr => ⟨hr.1.1, ?_⟩
    have hvals : r'.2.2 = r.2.2 := hr.2
    simp only [ObjRow.old, ObjRow.wish, hvals]

/-- The values of an object in a row are those in the vectors of the entry. -/
theorem rows_slot {cfg : CfgMem} {k : Nat} {r : ObjRow} (hr : (cfg.rows e)[k]? = some r) :
    ∃ en, cfg.entries[e]? = some en ∧ en.vals.old? (some k) = some r.old ∧
      en.vals.wish? (some k) = some r.wish := by
  cases he : cfg.entries[e]? with
  | none =>
    rw [rows_none he] at hr
    cases hr
  | some en =>
    cases hd : en.dynmem.bind (cfg.dynmems[·]?) with
    | none =>
      rw [rows_no_class he hd] at hr
      cases hr
    | some dm =>
      rw [rows_eq he hd] at hr
      obtain ⟨-, hr⟩ := List.getElem?_zip_eq_some.mp hr
      obtain ⟨-, hr⟩ := List.getElem?_zip_eq_some.mp hr
      obtain ⟨hold, hr⟩ := List.getElem?_zip_eq_some.mp hr
      obtain ⟨hwish, -⟩ := List.getElem?_zip_eq_some.mp hr
      exact ⟨en, rfl, hold, hwish⟩

end Hist

/-! ## Extreme values -/

/-- What a value that was read makes of the wish value. -/
def NumType.pick (t : NumType) (dynval : DynVal) (value buf : Value) : Value :=
  match dynval with
  | .max => if t.lt value buf then t.store value buf else value
  | .min => if t.lt buf value then t.store value buf else value
  | _ => value

section Extreme

variable {chunk e k : Nat} {C : ProcEvent → Prop} {p p' : ProcState} {en : CfgEntry} {t : NumType}

theorem readsOf_append (evs evs' : List ProcEvent) :
    readsOf e k (evs ++ evs') = readsOf e k evs ++ readsOf e k evs' :=
  List.filterMap_append

/-- What was read for a slot is picked for it. -/
theorem CfgEntry.Reads.pick {slot : Option Nat} {buf value : Value} {v' : EntryVals}
    (hr : en.Reads slot buf en.vals v') (ht : en.type.num = some t)
    (hd : en.dynval = .max ∨ en.dynval = .min) (hv : en.vals.wish? (some k) = some value) :
    v'.wish? (some k) =
      some ((readsOf e k [.read e slot buf]).foldl (t.pick en.dynval) value) := by
  by_cases hk : slot = some k
  · obtain ⟨value', hv', hmax, hmin⟩ := hr.wish t ht
    subst hk
    cases hv.symm.trans hv'
    rcases hd with hd | hd
    · rw [hmax hd, hd]
      simp [readsOf, ProcEvent.valueOf?, NumType.pick]
    · rw [hmin hd, hd]
      simp [readsOf, ProcEvent.valueOf?, NumType.pick]
  · rw [(hr.others (some k) (Ne.symm hk)).2.1, hv]
    simp [readsOf, ProcEvent.valueOf?, hk]

/-- An elementary change picks the value that it reads. -/
theorem Prim.wish (h : Prim C p p') (he : p.opt.entries[e]? = some en) (ht : en.type.num = some t)
    (hd : en.dynval = .max ∨ en.dynval = .min) (hp : en.ptrtgt = none) :
    ∃ en' evs, p'.opt.entries[e]? = some en' ∧ en'.shape = en.shape ∧ p'.events = p.events ++ evs ∧
      ∀ k value, en.vals.wish? (some k) = some value →
        en'.vals.wish? (some k) = some ((readsOf e k evs).foldl (t.pick en.dynval) value) := by
  obtain ⟨en', he', hs⟩ := h.same.entry he
  refine ⟨en', ?_⟩
  have hptr : ∀ {e₁ : Nat} {en₁ : CfgEntry} {q : Nat}, p.opt.entries[e₁]? = some en₁ →
      en₁.ptrtgt = some q → e₁ ≠ e := by
    rintro e₁ en₁ q he₁ hq rfl
    cases he.symm.trans he₁
    rw [hp] at hq
    cases hq
  cases h with
  | mem | objIdx | kick =>
    cases he.symm.trans he'
    exact ⟨[], he', hs, (List.append_nil _).symm, fun k value hv => hv⟩
  | pointer he₁ hq =>
    have hne := hptr he₁ hq
    cases he.symm.trans he'
    exact ⟨_, he', hs, rfl, fun k value hv => by simp [readsOf, ProcEvent.valueOf?, hne, hv]⟩
  | settle =>
    cases he.symm.trans he'
    exact ⟨_, he', hs, rfl, fun k value hv => by simp [readsOf, ProcEvent.valueOf?, hv]⟩
  | move he₁ hq =>
    have hne := hptr he₁ hq
    have he₂ := he'
    rw [entry_modifyVals_ne hne] at he₂
    cases he.symm.trans he₂
    exact ⟨_, he', hs, rfl, fun k value hv => by simp [readsOf, ProcEvent.valueOf?, hne, hv]⟩
  | @store e₁ en₁ slot value he₁ =>
    refine ⟨_, he', hs, rfl, fun k value hv => ?_⟩
    by_cases hne : e₁ = e
    · subst hne
      cases (entry_modifyVals (f := (·.setFlag true)) he).symm.trans he'
      simp [readsOf, ProcEvent.valueOf?, hv]
    · have he₂ := he'
      change (p.modifyVals e₁ _).opt.entries[e]? = _ at he₂
      rw [entry_modifyVals_ne hne] at he₂
      cases he.symm.trans he₂
      simp [readsOf, ProcEvent.valueOf?, hv]
  | @read e₁ en₁ slot v' f he₁ hf hr hC =>
    refine ⟨_, he', hs, rfl, fun k value hv => ?_⟩
    by_cases hne : e₁ = e
    · subst hne
      cases he.symm.trans he₁
      cases (entry_modifyVals (f := f) he).symm.trans he'
      rw [hf]
      exact hr.pick ht hd hv
    · have he₂ := he'
      change (p.modifyVals e₁ _).opt.entries[e]? = _ at he₂
      rw [entry_modifyVals_ne hne] at he₂
      cases he.symm.trans he₂
      simp [readsOf, ProcEvent.valueOf?, hne, hv]

/-- **A cycle picks all values that it reads**, one after the other. -/
theorem Steps.wish (h : Steps C p p') (he : p.opt.entries[e]? = some en)
    (ht : en.type.num = some t) (hd : en.dynval = .max ∨ en.dynval = .min) (hp : en.ptrtgt = none) :
    ∃ en' evs, p'.opt.entries[e]? = some en' ∧ en'.shape = en.shape ∧ p'.events = p.events ++ evs ∧
      ∀ k value, en.vals.wish? (some k) = some value →
        en'.vals.wish? (some k) = some ((readsOf e k evs).foldl (t.pick en.dynval) value) := by
  induction h with
  | refl => exact ⟨en, [], he, rfl, (List.append_nil _).symm, fun k value hv => hv⟩
  | tail _ hstep ih =>
    obtain ⟨en₁, evs, he₁, hs₁, hev, hwish⟩ := ih
    obtain ⟨htype, hdyn, -, -, htgt, -⟩ := CfgEntry.shape_fields hs₁
    obtain ⟨en₂, evs', he₂, hs₂, hev', hwish'⟩ :=
      hstep.wish he₁ (htype ▸ ht) (hdyn ▸ hd) (htgt.trans hp)
    refine ⟨en₂, evs ++ evs', he₂, hs₂.trans hs₁, by rw [hev', hev, List.append_assoc],
      fun k value hv => ?_⟩
    rw [hwish' k _ (hwish k value hv), hdyn, readsOf_append, List.foldl_append]

/-- For integers, this is the extreme value. -/
theorem toInt_foldl_pick {isSigned : Bool} {w : Nat} (hw : w ≤ 64) (l : List Value) (value : Value) :
    Value.toInt isSigned w (l.foldl ((NumType.int isSigned w).pick .max) value) =
        (l.map (Value.toInt isSigned w)).foldl max (Value.toInt isSigned w value) ∧
      Value.toInt isSigned w (l.foldl ((NumType.int isSigned w).pick .min) value) =
        (l.map (Value.toInt isSigned w)).foldl min (Value.toInt isSigned w value) := by
  have hmax : ∀ value buf, Value.toInt isSigned w ((NumType.int isSigned w).pick .max value buf) =
      max (Value.toInt isSigned w value) (Value.toInt isSigned w buf) := by
    intro value buf
    simp only [NumType.pick, NumType.lt, decide_eq_true_eq]
    split
    · rw [NumType.store, NumType.width, toInt_store hw]
      omega
    · omega
  have hmin : ∀ value buf, Value.toInt isSigned w ((NumType.int isSigned w).pick .min value buf) =
      min (Value.toInt isSigned w value) (Value.toInt isSigned w buf) := by
    intro value buf
    simp only [NumType.pick, NumType.lt, decide_eq_true_eq]
    split
    · rw [NumType.store, NumType.width, toInt_store hw]
      omega
    · omega
  induction l generalizing value with
  | nil => exact ⟨rfl, rfl⟩
  | cons buf l ih =>
    rw [List.foldl_cons, List.foldl_cons, List.map_cons, List.foldl_cons, List.foldl_cons, ← hmax,
      ← hmin]
    exact ⟨(ih _).1, (ih _).2⟩

end Extreme

/-! ## Pointers -/

/-- The last value that is not `NULL`. -/
def lastRead (l : List Value) : Value := (l.filter (· ≠ 0)).getLastD 0

/-- A pointer of an object: unless it is done, its old value is the last one that was read, and it is
done once it was followed, if that is to happen once only. -/
structure PtrHist (dynval : DynVal) (old : Value) (state : PtrState) (hist : ValHist) : Prop where
  old : state ≠ .done → old = lastRead hist.seen
  done : state = .done ↔ dynval = .ptrOnce ∧ hist.followed ≠ []
  once : dynval = .ptrOnce → hist.followed.length ≤ 1

/-- The pointer was read, and the value before was the same. -/
def ReadBefore (e k : Nat) (hist : ValHist) (value : Value) (evs : List ProcEvent) : Prop :=
  ∃ evs₁ evs₂, evs = evs₁ ++ .pointer e k value value :: evs₂ ∧
    lastRead (hist.seen ++ readsOf e k evs₁) = value

/-- The old value and the state of the pointer `e` of the object `k`. -/
def ProcState.PtrSlot (e k q : Nat) (en : CfgEntry) (old : Value) (state : PtrState) (p : ProcState) :
    Prop :=
  ∃ en' pm, p.opt.entries[e]? = some en' ∧ en'.shape = en.shape ∧ p.opt.ptrmems[q]? = some pm ∧
    en'.vals.old? (some k) = some old ∧ pm.vState[k]? = some state

/-- A pointer of an object within a cycle. -/
structure ProcState.Settles (e k q : Nat) (en : CfgEntry) (hist : ValHist) (p : ProcState) : Prop where
  slot : ∃ old state, p.PtrSlot e k q en old state ∧
    PtrHist en.dynval old state (hist.add e k p.events) ∧
    ∀ value, .pointer e k value value ∈ p.events → value ≠ 0 → state ≠ .done →
      ReadBefore e k hist value p.events
  follow : ∀ value, .follow e k value ∈ p.events →
    value ≠ 0 ∧ ReadBefore e k hist value p.events

section Pointers

variable {e q k : Nat} {C : ProcEvent → Prop} {p p' : ProcState} {en : CfgEntry} {hist : ValHist}
  {value : Value} {evs evs' : List ProcEvent}

theorem lastRead_concat {l : List Value} : lastRead (l ++ [value]) =
    if value = 0 then lastRead l else value := by
  unfold lastRead
  rw [List.filter_append]
  by_cases h0 : value = 0
  · simp [h0]
  · rw [if_neg h0, List.filter_cons_of_pos (by simpa using h0), List.filter_nil,
      List.getLastD_concat]

theorem ReadBefore.append (h : ReadBefore e k hist value evs) (evs' : List ProcEvent) :
    ReadBefore e k hist value (evs ++ evs') := by
  obtain ⟨evs₁, evs₂, rfl, hlast⟩ := h
  exact ⟨evs₁, evs₂ ++ evs', by rw [List.append_assoc]; rfl, hlast⟩

/-- An event that is not about the pointer. -/
theorem add_other {ev : ProcEvent} (h : ev.valueOf? e k = none) (h' : ev.followOf? e k = none) :
    hist.add e k (evs ++ [ev]) = hist.add e k evs := by
  simp [ValHist.add, readsOf, followsOf, h, h']

/-- Another event happens. -/
theorem ProcState.Settles.other {ev : ProcEvent} (h : p.Settles e k q en hist)
    (hslot : ∀ old state, p.PtrSlot e k q en old state → p'.PtrSlot e k q en old state)
    (hev : p'.events = p.events ++ [ev]) (hv : ev.valueOf? e k = none)
    (hf : ev.followOf? e k = none) : p'.Settles e k q en hist := by
  obtain ⟨old, state, hs, hh, hptr⟩ := h.slot
  refine ⟨⟨old, state, hslot old state hs, ?_, fun value hm h0 hd => ?_⟩, fun value hm => ?_⟩
  · rw [hev, add_other hv hf]
    exact hh
  · rw [hev] at hm ⊢
    rcases List.mem_append.mp hm with hm | hm
    · exact (hptr value hm h0 hd).append _
    · obtain rfl := List.mem_singleton.mp hm
      simp [ProcEvent.valueOf?] at hv
  · rw [hev] at hm ⊢
    rcases List.mem_append.mp hm with hm | hm
    · exact (h.follow value hm).imp_right (·.append _)
    · obtain rfl := List.mem_singleton.mp hm
      simp [ProcEvent.followOf?] at hf

/-- Nothing happens to the pointer. -/
theorem ProcState.Settles.same (h : p.Settles e k q en hist)
    (hslot : ∀ old state, p.PtrSlot e k q en old state → p'.PtrSlot e k q en old state)
    (hev : p'.events = p.events) : p'.Settles e k q en hist := by
  obtain ⟨old, state, hs, hh, hptr⟩ := h.slot
  exact ⟨⟨old, state, hslot old state hs, hev ▸ hh, hev ▸ hptr⟩, hev ▸ h.follow⟩

/-- The pointer is read, and not changed. -/
theorem PtrHist.pointer {dynval : DynVal} {old buf : Value} {state : PtrState}
    (h : PtrHist dynval old state (hist.add e k evs)) (hb : state = .done ∨ buf = 0 ∨ buf = old) :
    PtrHist dynval old state (hist.add e k (evs ++ [.pointer e k buf value])) := by
  have hseen : (hist.add e k (evs ++ [.pointer e k buf value])).seen =
      (hist.add e k evs).seen ++ [buf] := by
    simp [ValHist.add, readsOf, ProcEvent.valueOf?]
  have hfol : (hist.add e k (evs ++ [.pointer e k buf value])).followed =
      (hist.add e k evs).followed := by
    simp [ValHist.add, followsOf, ProcEvent.followOf?]
  refine ⟨fun hd => ?_, by rw [hfol]; exact h.done, by rw [hfol]; exact h.once⟩
  rw [hseen, lastRead_concat]
  rcases hb with hb | rfl | rfl
  · exact absurd hb hd
  · rw [if_pos rfl]
    exact h.old hd
  · split
    · exact h.old hd
    · rfl

/-- The pointer has changed. -/
theorem PtrHist.move {dynval : DynVal} {old buf : Value} {state : PtrState}
    (h : PtrHist dynval old state (hist.add e k evs)) (h0 : buf ≠ 0) :
    PtrHist dynval buf state (hist.add e k (evs ++ [.pointer e k buf value])) := by
  have hseen : (hist.add e k (evs ++ [.pointer e k buf value])).seen =
      (hist.add e k evs).seen ++ [buf] := by
    simp [ValHist.add, readsOf, ProcEvent.valueOf?]
  have hfol : (hist.add e k (evs ++ [.pointer e k buf value])).followed =
      (hist.add e k evs).followed := by
    simp [ValHist.add, followsOf, ProcEvent.followOf?]
  refine ⟨fun hd => ?_, by rw [hfol]; exact h.done, by rw [hfol]; exact h.once⟩
  rw [hseen, lastRead_concat, if_neg h0]

/-- The pointer is followed. -/
theorem PtrHist.settle {dynval : DynVal} {old buf : Value} {state : PtrState}
    (h : PtrHist dynval old state (hist.add e k evs)) (hd : state ≠ .done) :
    PtrHist dynval old (if dynval = .ptrOnce then .done else .settled)
      (hist.add e k (evs ++ [.follow e k buf])) := by
  have hseen : (hist.add e k (evs ++ [.follow e k buf])).seen = (hist.add e k evs).seen := by
    simp [ValHist.add, readsOf, ProcEvent.valueOf?]
  have hfol : (hist.add e k (evs ++ [.follow e k buf])).followed =
      (hist.add e k evs).followed ++ [buf] := by
    simp [ValHist.add, followsOf, ProcEvent.followOf?]
  refine ⟨fun _ => by rw [hseen]; exact h.old hd, ?_, fun ho => ?_⟩
  · rw [hfol]
    by_cases ho : dynval = .ptrOnce
    · simp [ho]
    · simp [ho]
  · have hnil : (hist.add e k evs).followed = [] := by
      by_contra hne
      exact hd (h.done.mpr ⟨ho, hne⟩)
    rw [hfol, hnil]
    exact Nat.le_refl 1

/-- The values of the entry change, but not in the slot. -/
theorem ProcState.PtrSlot.modifyVals {old : Value} {state : PtrState} {e₁ : Nat}
    {f : EntryVals → EntryVals} (h : p.PtrSlot e k q en old state)
    (hf : e₁ = e → ∀ v : EntryVals, (f v).dims = v.dims ∧ (f v).old? (some k) = v.old? (some k)) :
    (p.modifyVals e₁ f).PtrSlot e k q en old state := by
  obtain ⟨en', pm, he, hs, hpm, hold, hst⟩ := h
  by_cases hne : e₁ = e
  · subst hne
    obtain ⟨hdims, hslot⟩ := hf rfl en'.vals
    refine ⟨_, pm, entry_modifyVals he, ?_, hpm, hslot.trans hold, hst⟩
    rw [← hs]
    simp [CfgEntry.shape, hdims]
  · exact ⟨en', pm, (entry_modifyVals_ne hne).trans he, hs, hpm, hold, hst⟩

theorem ptrmem_modifyPtrmem {f : PtrMemEntry → PtrMemEntry} {pm : PtrMemEntry}
    (hpm : p.opt.ptrmems[q]? = some pm) : (p.modifyPtrmem q f).opt.ptrmems[q]? = some (f pm) :=
  (List.getElem?_modify_eq _ _ _).trans (congrArg (Option.map _) hpm)

/-- **Pointers.** The old value of a pointer that is not done is the one that was read last, so that
the pointer is followed where two values in a row are the same. -/
theorem Prim.settles (h : Prim C p p') (hC : ∀ slot value, ¬ C (.read e slot value))
    (hfol : ∀ (e' i : Nat) (v : Value) (en' : CfgEntry), C (.follow e' i v) →
      p.opt.entries[e']? = some en' → en'.ptrtgt = some q → e' = e)
    (hq : en.ptrtgt = some q)
    (hown : ∀ pm, p.opt.ptrmems[q]? = some pm → (p.opt.dynmem? pm.dynmem).isSome)
    (ht : p.Settles e k q en hist) : p'.Settles e k q en hist := by
  -- The pointer at its slot.
  have hmine : ∀ {q₁ : Nat} {en₁ : CfgEntry} {pm₁ : PtrMemEntry} {slot : Option Nat} {old : Value}
      {state : PtrState}, p.opt.entries[e]? = some en₁ → en₁.ptrtgt = some q₁ →
      p.opt.ptrmems[q₁]? = some pm₁ → slot = (p.opt.dynmem? pm₁.dynmem).map (fun _ => k) →
      p.PtrSlot e k q en old state → q₁ = q ∧ slot = some k ∧ en₁.vals.old? (some k) = some old ∧
        pm₁.vState[k]? = some state := by
    rintro q₁ en₁ pm₁ slot old state he₁ hq₁ hpm₁ hslot ⟨en', pm, he, hs, hpm, hold, hst⟩
    cases he.symm.trans he₁
    obtain rfl := Option.some.inj ((hq₁.symm.trans (CfgEntry.shape_fields hs).2.2.2.2.1).trans hq)
    cases hpm.symm.trans hpm₁
    obtain ⟨dm, hdm⟩ := Option.isSome_iff_exists.mp (hown _ hpm₁)
    exact ⟨rfl, by rw [hslot, hdm]; rfl, hold, hst⟩
  cases h with
  | mem => exact ht.same (fun _ _ hs => hs) rfl
  | objIdx => exact ht.same (fun _ _ hs => hs) rfl
  | kick => exact ht.same (fun _ _ hs => hs) rfl
  | @read e₁ en₁ slot v' f he₁ hf hr hc =>
    have hne : e₁ ≠ e := by
      rintro rfl
      exact hC _ _ hc
    exact ht.other (fun _ _ hs => hs.modifyVals fun heq => absurd heq hne) rfl
      (by simp [ProcEvent.valueOf?, hne]) rfl
  | @store e₁ en₁ slot value he₁ =>
    exact ht.other (fun _ _ hs => hs.modifyVals fun _ v => ⟨dims_setFlag, old?_setFlag⟩) rfl rfl rfl
  | @pointer e₁ q₁ i en₁ pm₁ slot value he₁ hq₁ hpm₁ hslot hvalue hb =>
    by_cases hek : e₁ = e ∧ i = k
    · obtain ⟨rfl, rfl⟩ := hek
      obtain ⟨old, state, hs, hh, hptr⟩ := ht.slot
      obtain ⟨rfl, rfl, hold, hst⟩ := hmine he₁ hq₁ hpm₁ hslot hs
      obtain rfl : old = value := by rw [← hvalue, hold]; rfl
      have hb' : state = .done ∨ p.buf = 0 ∨ p.buf = old := by
        rw [hst, Option.some_inj] at hb
        tauto
      refine ⟨⟨old, state, hs, hh.pointer hb', fun v hm h0 hd => ?_⟩, fun v hm => ?_⟩
      · rcases List.mem_append.mp hm with hm | hm
        · exact (hptr v hm h0 hd).append _
        · obtain ⟨hv, hv'⟩ : v = p.buf ∧ v = old := by simpa using hm
          refine ⟨p.events, [], ?_, (hh.old hd).symm.trans hv'.symm⟩
          show p.events ++ [.pointer e₁ i p.buf old] = _
          rw [← hv, ← hv']
      · rcases List.mem_append.mp hm with hm | hm
        · exact (ht.follow v hm).imp_right (·.append _)
        · simp at hm
    · exact ht.other (fun _ _ hs => hs) rfl (by simp [ProcEvent.valueOf?, hek]) rfl
  | @move e₁ q₁ i en₁ pm₁ slot value he₁ hq₁ hpm₁ hslot hvalue h0 hst₁ hne₁ =>
    by_cases hek : e₁ = e ∧ i = k
    · obtain ⟨rfl, rfl⟩ := hek
      obtain ⟨old, state, hs, hh, hptr⟩ := ht.slot
      obtain ⟨rfl, rfl, hold, hst⟩ := hmine he₁ hq₁ hpm₁ hslot hs
      obtain ⟨en', pm, he, hs, hpm, -, -⟩ := hs
      cases he.symm.trans he₁
      cases hpm.symm.trans hpm₁
      refine ⟨⟨p.buf, state, ⟨_, pm₁, entry_modifyVals he₁, ?_, hpm₁, ?_, hst⟩, hh.move h0,
        fun v hm h0 hd => ?_⟩, fun v hm => ?_⟩
      · rw [← hs]
        simp [CfgEntry.shape]
      · obtain ⟨hlt, -⟩ := List.getElem?_eq_some_iff.mp hold
        simp [EntryVals.old?, EntryVals.setOld, hlt]
      · rcases List.mem_append.mp hm with hm | hm
        · exact (hptr v hm h0 hd).append _
        · obtain ⟨hv, hv'⟩ : v = p.buf ∧ v = value := by simpa using hm
          exact absurd (hv.symm.trans hv') hne₁
      · rcases List.mem_append.mp hm with hm | hm
        · exact (ht.follow v hm).imp_right (·.append _)
        · simp at hm
    · refine ht.other (fun old state hs => ?_) rfl (by simp [ProcEvent.valueOf?, hek]) rfl
      refine hs.modifyVals fun heq v => ⟨dims_setOld, old?_setOld_ne ?_⟩
      have hi : i ≠ k := fun hi => hek ⟨heq, hi⟩
      rw [hslot]
      cases p.opt.dynmem? pm₁.dynmem with
      | none => simp
      | some dm => simpa using hi.symm
  | @settle e₁ q₁ i en₁ pm₁ he₁ hq₁ hpm₁ h0 hst₁ hev hc =>
    by_cases hek : e₁ = e ∧ i = k
    · obtain ⟨rfl, rfl⟩ := hek
      obtain ⟨old, state, hs, hh, hptr⟩ := ht.slot
      obtain ⟨rfl, -, -, hst⟩ := hmine he₁ hq₁ hpm₁ rfl hs
      obtain ⟨en', pm, he, hs, hpm, hold, -⟩ := hs
      cases he.symm.trans he₁
      cases hpm.symm.trans hpm₁
      have hdyn := (CfgEntry.shape_fields hs).2.1
      have hd : state ≠ .done := by
        obtain ⟨state', hst', hd⟩ := hst₁
        cases hst.symm.trans hst'
        exact hd
      refine ⟨⟨old, _, ⟨en₁, _, he₁, hs, ptrmem_modifyPtrmem hpm₁, hold, ?_⟩, hh.settle hd, fun v hm h0 hd' => ?_⟩,
        fun v hm => ?_⟩
      · obtain ⟨hlt, -⟩ := List.getElem?_eq_some_iff.mp hst
        rw [List.getElem?_set_self hlt, hdyn]
      · rcases List.mem_append.mp hm with hm | hm
        · exact (hptr v hm h0 hd).append _
        · simp at hm
      · rcases List.mem_append.mp hm with hm | hm
        · exact (ht.follow v hm).imp_right (·.append _)
        · obtain rfl : v = p.buf := by simpa using hm
          exact ⟨h0, (hptr _ hev h0 hd).append _⟩
    · refine ht.other (fun old state hs => ?_) rfl rfl (by simp [ProcEvent.followOf?, hek])
      obtain ⟨en', pm, he, hs, hpm, hold, hst⟩ := hs
      by_cases hqq : q₁ = q
      · subst hqq
        obtain rfl := hfol e₁ i _ en₁ hc he₁ hq₁
        have hi : i ≠ k := fun hi => hek ⟨rfl, hi⟩
        cases hpm.symm.trans hpm₁
        refine ⟨en', _, he, hs, ptrmem_modifyPtrmem hpm₁, hold, ?_⟩
        exact (List.getElem?_set_ne hi).trans hst
      · exact ⟨en', pm, he, hs, (List.getElem?_modify_ne _ _ hqq).trans hpm, hold, hst⟩

theorem Steps.settles (h : Steps C p p') (hC : ∀ slot value, ¬ C (.read e slot value))
    (hfol : ∀ (e' i : Nat) (v : Value) (en' : CfgEntry), C (.follow e' i v) →
      p.opt.entries[e']? = some en' → en'.ptrtgt = some q → e' = e)
    (hq : en.ptrtgt = some q)
    (hown : ∀ pm, p.opt.ptrmems[q]? = some pm → (p.opt.dynmem? pm.dynmem).isSome)
    (ht : p.Settles e k q en hist) : p'.Settles e k q en hist := by
  induction h with
  | refl => exact ht
  | tail hsteps hstep ih =>
    have hsame := Steps.same hsteps
    refine hstep.settles hC (fun e' i v en' hc he' hq' => ?_) hq (fun pm hpm => ?_) ih
    · obtain ⟨en₀, he₀, hs⟩ := hsame.symm.entry he'
      exact hfol e' i v en₀ hc he₀ ((CfgEntry.shape_fields hs).2.2.2.2.1.trans hq')
    · obtain ⟨pm₀, hpm₀, hs⟩ := hsame.symm.ptrmem hpm
      rw [← (PtrMemEntry.shape_fields hs).2.2.1, ← Option.isSome_map (f := DynMemEntry.shape),
        hsame.dynmem? pm₀.dynmem, Option.isSome_map]
      exact hown pm₀ hpm₀

end Pointers

/-! ## Runs -/

/-- No section is named by two pointers. -/
def CfgMem.OnePointer (cfg : CfgMem) : Prop :=
  ∀ e e' q, cfg.tgt e = some q → cfg.tgt e' = some q → e' = e

/-- A pointer of a class with a section of its own. -/
structure Trainer.HasPointer (s : Trainer) (e d q : Nat) (dynval : DynVal) : Prop where
  inv : s.Inv
  one : s.opt.OnePointer
  entry : ∃ en, s.opt.entries[e]? = some en ∧ en.dynval = dynval ∧ en.ptrmem = none
  pointer : ∃ dm pm, s.opt.ObjPtr e d q dm pm ∧ pm.dynmem = some d

section Owners

variable {chunk e d q k : Nat} {cfg cfg' : CfgMem} {s s' : Trainer} {i : LoopInput}
  {dynval : DynVal} {dm : DynMemEntry} {pm : PtrMemEntry} {hist : ValHist}

theorem CfgMem.OnePointer.unshared (h : cfg.OnePointer) : cfg.Unshared := by
  intro e d p dm pm hp
  refine ⟨List.countP_eq_zero.mpr fun en hm hen => ?_,
    fun e' hne ht => absurd (h e e' p hp.tgt ht) hne⟩
  obtain ⟨e', he'⟩ := List.mem_iff_getElem?.mp hm
  obtain ⟨ht, hd⟩ : en.ptrtgt = some p ∧ en.dynmem = none := by simpa [and_comm] using hen
  obtain rfl := h e e' p hp.tgt (by simp [CfgMem.tgt, he', ht])
  obtain ⟨en', he, hd', -⟩ := hp.entry
  cases he'.symm.trans he
  rw [hd] at hd'
  cases hd'

theorem CfgMem.OnePointer.of_fixed (h : cfg.OnePointer) (hf : cfg.SameFixed cfg') :
    cfg'.OnePointer := by
  have htgt : ∀ e, cfg'.tgt e = cfg.tgt e := by
    intro e
    have := congrArg (fun l => (l[e]?).bind fun x => x.ptrtgt) hf.entries
    simp only [List.getElem?_map, Option.bind_map] at this
    exact this
  intro e e' q he he'
  exact h e e' q ((htgt e).symm.trans he) ((htgt e').symm.trans he')

theorem step_dynmems_length (h : s.step chunk i = .ok s') (hs : s.Inv) :
    s'.opt.dynmems.length = s.opt.dynmems.length := by
  by_cases hp : s.phase = .input
  · obtain ⟨hk, -⟩ := step_keeps h (by simp [hp])
    exact hk.dynmems.length_eq.symm
  · simpa using congrArg List.length (step_acts h hs.linked hs.aligned hp).1.classes

theorem Trainer.HasPointer.step (h : s.HasPointer e d q dynval) (hs : s.step chunk i = .ok s') :
    s'.HasPointer e d q dynval := by
  have hfix := step_fixed hs h.inv.linked
  refine ⟨step_inv_trainer h.inv hs, h.one.of_fixed hfix, ?_, ?_⟩
  · obtain ⟨en, he, hdyn, hsec⟩ := h.entry
    obtain ⟨en', he', hf⟩ := Pointwise.getElem?_of_map_eq hfix.entries he
    obtain ⟨-, hsec', -, hdyn'⟩ := fixed_fields hf
    exact ⟨en', he', hdyn'.trans hdyn, hsec'.trans hsec⟩
  · obtain ⟨dm, pm, hp, hown⟩ := h.pointer
    obtain ⟨en, he, hd, ht⟩ := hp.entry
    obtain ⟨en', he', hf⟩ := Pointwise.getElem?_of_map_eq hfix.entries he
    obtain ⟨pm', hpm', hfp⟩ := Pointwise.getElem?_of_map_eq hfix.ptrmems hp.ptrmem
    obtain ⟨hd', -, ht', -⟩ := fixed_fields hf
    have hown' := congrArg (fun x : PtrMemEntry => x.dynmem) hfp
    obtain ⟨hlt, -⟩ := List.getElem?_eq_some_iff.mp hp.dynmem
    rw [← step_dynmems_length hs h.inv] at hlt
    exact ⟨_, pm', ⟨⟨en', he', hd'.trans hd, ht'.trans ht⟩, List.getElem?_eq_getElem hlt, hpm'⟩,
      hown'.trans hown⟩

/-- The values and the states of a pointer stand beside the objects of its class. -/
theorem ptrRows_addr (ha : cfg.Aligned) (hu : cfg.Unshared) (hp : cfg.ObjPtr e d q dm pm) :
    (cfg.rows e).map (·.1) = dm.vMaddr ∧ (cfg.stateRows e).map (·.1) = dm.vMaddr := by
  obtain ⟨hst, hoffs, -⟩ := (targetsAligned_iff ha).mpr hu e d q dm pm hp
  obtain ⟨en, he, ho⟩ := hp.objs
  obtain ⟨en', he', hd, -⟩ := hp.entry
  cases he.symm.trans he'
  have hv := ha.counts.values e en _ he ho
  rw [numObjs_of_objs he ho] at hv
  have hsize : dm.vMaddr.length = dm.vMsize.length :=
    ha.classes dm (List.mem_of_getElem? hp.dynmem)
  obtain ⟨h1, h2, h3⟩ : en.vals.vOldval.length = dm.vMaddr.length ∧
      en.vals.vValue.length = dm.vMaddr.length ∧ en.vals.vCstr.length = dm.vMaddr.length := by
    simpa [EntryVals.dims] using hv
  constructor
  · rw [rows_eq he (by rw [hd]; exact hp.dynmem)]
    refine List.map_fst_zip ?_
    simp only [List.length_zip, h1, h2, h3, ← hsize, min_self, le_refl]
  · rw [hp.stateRows_eq]
    refine List.map_fst_zip ?_
    simp [hst, hoffs]

theorem map_fst_ptrRows (ha : cfg.Aligned) (hu : cfg.Unshared) (hp : cfg.ObjPtr e d q dm pm) :
    (cfg.ptrRows e).map (·.1) = (cfg.rows e).map (·.1) := by
  obtain ⟨hrows, hstates⟩ := ptrRows_addr ha hu hp
  have hvals : (cfg.valRows e).map (·.1) = (cfg.rows e).map (·.1) := by
    rw [CfgMem.valRows, List.map_map]
    rfl
  rw [CfgMem.ptrRows, zipRows_addr ((hvals.trans hrows).trans hstates.symm), hvals]

/-- **Each phase** does to a pointer what it does to the objects. -/
theorem ptrRows_step (h : s.step chunk i = .ok s') (hs : s.HasPointer e d q dynval) :
    RowsStep s.phase s.removes (0, .init) (s.opt.ptrRows e) (s'.opt.ptrRows e) := by
  have hs' := hs.step h
  obtain ⟨dm, pm, hp, -⟩ := hs.pointer
  obtain ⟨dm', pm', hp', -⟩ := hs'.pointer
  have haddr : ∀ {cfg : CfgMem} {dm : DynMemEntry} {pm : PtrMemEntry}, cfg.Aligned → cfg.Unshared →
      cfg.ObjPtr e d q dm pm → (cfg.valRows e).map (·.1) = (cfg.stateRows e).map (·.1) := by
    intro cfg dm pm ha hu hp
    obtain ⟨hrows, hstates⟩ := ptrRows_addr ha hu hp
    rw [hstates, ← hrows, CfgMem.valRows, List.map_map]
    rfl
  exact (valRows_step h hs.inv.linked hs.inv.aligned).zip
    (step_ptr h hs.inv hs.one.unshared hs'.one.unshared e d q dm pm hp).1
    (haddr hs.inv.aligned hs.one.unshared hp) (haddr hs'.inv.aligned hs'.one.unshared hp')

/-- What stands in a row of a pointer is at its slot. -/
theorem ptrRows_slot {r : Ptr × Value × PtrState} (hp : cfg.ObjPtr e d q dm pm)
    (hr : (cfg.ptrRows e)[k]? = some r) : ∃ en, cfg.entries[e]? = some en ∧
      en.vals.old? (some k) = some r.2.1 ∧ pm.vState[k]? = some r.2.2 := by
  obtain ⟨v, x, hv, hx, rfl⟩ := List.getElem?_zipWith_eq_some.mp hr
  rw [CfgMem.valRows, List.getElem?_map] at hv
  obtain ⟨row, hrow, rfl⟩ := Option.map_eq_some_iff.mp hv
  obtain ⟨en, he, hold, -⟩ := rows_slot hrow
  rw [hp.stateRows_eq] at hx
  obtain ⟨-, hx⟩ := List.getElem?_zip_eq_some.mp hx
  exact ⟨en, he, hold, (List.getElem?_zip_eq_some.mp hx).1⟩

/-- A pointer of a class is not read as a value. -/
theorem not_read_pointer {en : CfgEntry} {slot : Option Nat} {value : Value} (ha : s.Activated)
    (he : s.opt.entries[e]? = some en) (hsec : en.ptrmem = none) (hq : en.ptrtgt.isSome) :
    ¬ Allowed s.cfgAct s.opt (.read e slot value) := by
  have hno : ∀ {p : Nat} {pm : PtrMemEntry}, s.opt.ptrmems[p]? = some pm → e ∉ pm.cfgAct := by
    intro p pm hpm hm
    have := (ha.targets p pm hpm).2 e hm
    rw [CfgMem.sectionOf, he, Option.bind_some, hsec] at this
    cases this
  intro hplace
  cases hplace with
  | static hm he' hd ht =>
    cases he.symm.trans he'
    rw [ht] at hq
    cases hq
  | obj hd hm hi he' ht =>
    cases he.symm.trans he'
    rw [ht] at hq
    cases hq
  | target hpm hm hd hi => exact hno hpm hm
  | staticTarget hpm hm hd => exact hno hpm hm

/-- **A cycle** keeps what relates a pointer to its history. -/
theorem Trainer.HasPointer.process {p : ProcState} {r : Ptr × Value × PtrState}
    (h : s.HasPointer e d q dynval) (hproc : processActCfg chunk s.cfgAct (s.cycle i) = .ok p)
    (hr : (s.opt.ptrRows e)[k]? = some r) (hR : PtrHist dynval r.2.1 r.2.2 hist) :
    ∃ en, en.dynval = dynval ∧ p.Settles e k q en hist := by
  obtain ⟨en, he, rfl, hsec⟩ := h.entry
  obtain ⟨dm, pm, hp, hown⟩ := h.pointer
  have hq : en.ptrtgt = some q := by
    obtain ⟨en', he', -, ht⟩ := hp.entry
    cases he.symm.trans he'
    exact ht
  refine ⟨en, rfl, (processActCfg_steps hproc).settles (fun slot value => ?_)
    (fun e' j v en' hc he' ht' => ?_) hq (fun pm' hpm' => ?_) ⟨⟨r.2.1, r.2.2, ?_, ?_, ?_⟩, ?_⟩⟩
  · exact not_read_pointer h.inv.activated he hsec (by rw [hq]; rfl)
  · have ht : s.opt.tgt e' = some q := by
      have he₁ : s.opt.entries[e']? = some en' := he'
      simp [CfgMem.tgt, he₁, ht']
    exact hp.owner h.inv.activated h.one.unshared hc ht
  · cases hp.ptrmem.symm.trans hpm'
    rw [hown]
    exact Option.isSome_of_mem hp.dynmem
  · obtain ⟨en', he', hold, hst⟩ := ptrRows_slot hp hr
    cases he.symm.trans he'
    exact ⟨en, pm, he, rfl, hp.ptrmem, hold, hst⟩
  · have hnil : hist.add e k (s.cycle i).events = hist := by
      show ValHist.mk hist.start (hist.seen ++ []) (hist.followed ++ []) = hist
      rw [List.append_nil, List.append_nil]
    rw [hnil]
    exact hR
  · exact fun value hm => absurd hm List.not_mem_nil
  · exact fun value hm => absurd hm List.not_mem_nil

end Owners

section Runs

variable {chunk e k d q : Nat} {s₀ s s' : Trainer} {i : LoopInput} {is : List LoopInput}
  {hists : List ValHist} {en : CfgEntry} {pm : PtrMemEntry} {value : Value}

theorem step_process (h : s.step chunk i = .ok s') (hp : s.phase = .process) :
    ∃ p, processActCfg chunk s.cfgAct (s.cycle i) = .ok p ∧ s'.opt = p.opt ∧
      s'.events = p.events := by
  unfold Trainer.step at h
  simp only [hp] at h
  obtain ⟨p, hproc, h⟩ := Run.bind_eq_ok.mp h
  cases h
  exact ⟨p, hproc, rfl, rfl⟩

theorem Trainer.Fresh.rows (h : s₀.Fresh) : s₀.opt.rows e = [] := by
  cases he : s₀.opt.entries[e]? with
  | none => exact rows_none he
  | some en =>
    cases hd : en.dynmem.bind (s₀.opt.dynmems[·]?) with
    | none => exact rows_no_class he hd
    | some dm =>
      obtain ⟨d, -, hdm⟩ := Option.bind_eq_some_iff.mp hd
      rw [rows_eq he hd, (h.noObjs dm (List.mem_of_getElem? hdm)).1]
      rfl

/-- What all phases keep holds of the state and the histories in every run. -/
theorem runHist_inv {Q : Trainer → List ValHist → Prop} (h0 : Q s₀ [])
    (hstep : ∀ (s s' : Trainer) (is : List LoopInput) (i : LoopInput) (hists : List ValHist),
      Run.run (Trainer.step chunk) s₀ is = .ok s → s.step chunk i = .ok s' → Q s hists →
      Q s' (s.recordHist e s' hists))
    (hrun : Run.run (Trainer.stepHist chunk e) (s₀, []) is = .ok (s, hists)) :
    (∃ is, Run.run (Trainer.step chunk) s₀ is = .ok s) ∧ Q s hists := by
  refine Run.run_inv (P := fun x : Trainer × List ValHist =>
    (∃ is, Run.run (Trainer.step chunk) s₀ is = .ok x.1) ∧ Q x.1 x.2) ?_ ⟨⟨[], rfl⟩, h0⟩ hrun
  rintro ⟨s, hists⟩ i x ⟨⟨is, his⟩, hQ⟩ hx
  obtain ⟨s', hs, hx⟩ := Run.bind_eq_ok.mp hx
  cases hx
  refine ⟨⟨is ++ [i], ?_⟩, hstep s s' is i hists his hs hQ⟩
  rw [Run.run_append, his]
  exact (Run.run_cons_ok hs).trans Run.run_nil

/-- What a phase makes of the objects keeps their extreme values. -/
theorem recordHist_extreme {t : NumType} (h : s.step chunk i = .ok s') (hs : s.opt.Linked)
    (ha : s.opt.Aligned) (he : s.opt.entries[e]? = some en) (ht : en.type.num = some t)
    (hd : en.dynval = .max ∨ en.dynval = .min) (hp : en.ptrtgt = none)
    (hR : List.Forall₂ (fun (r : Ptr × Value × Value) (hist : ValHist) =>
      r.2.2 = hist.seen.foldl (t.pick en.dynval) hist.start) (s.opt.valRows e) hists) :
    List.Forall₂ (fun (r : Ptr × Value × Value) (hist : ValHist) =>
      r.2.2 = hist.seen.foldl (t.pick en.dynval) hist.start) (s'.opt.valRows e)
        (s.recordHist e s' hists) := by
  have haddr : ∀ cfg : CfgMem, (cfg.valRows e).map (·.1) = (cfg.rows e).map (·.1) := by
    intro cfg
    rw [CfgMem.valRows, List.map_map]
    rfl
  refine recordHist_forall₂
    (P := fun (x : Value × Value) hist => x.2 = hist.seen.foldl (t.pick en.dynval) hist.start)
    (valRows_step h hs ha) (haddr _) (haddr _) hR rfl fun hphase k r r' hist hr hr' hR => ?_
  -- A cycle picks the values that it reads.
  obtain ⟨p, hproc, hopt, hev⟩ := step_process h hphase
  rw [CfgMem.valRows, List.getElem?_map] at hr hr'
  obtain ⟨row, hrow, rfl⟩ := Option.map_eq_some_iff.mp hr
  obtain ⟨row', hrow', rfl⟩ := Option.map_eq_some_iff.mp hr'
  obtain ⟨en₁, he₁, -, hwish⟩ := rows_slot hrow
  cases he.symm.trans he₁
  obtain ⟨en₂, he₂, -, hwish'⟩ := rows_slot hrow'
  obtain ⟨en₃, evs, he₃, -, hevs, hpick⟩ := (processActCfg_steps hproc).wish he₁ ht hd hp
  rw [hopt] at he₂
  cases he₂.symm.trans he₃
  have hnew := hpick k _ hwish
  rw [hwish'] at hnew
  have hevs' : s'.events = evs := hev.trans hevs
  show row'.wish = _
  rw [Option.some.inj hnew, ValHist.add, List.foldl_append, hevs', ← hR]

/-- **Extreme values.** In every state of every run, the wish value of an object of a `max` entry is the
maximum of the value that the object started with and of all values that were read from this object
since, whatever happens to other objects; it is the minimum for a `min` entry. -/
theorem run_extreme {isSigned : Bool} {w : Nat} (h : s₀.Fresh)
    (he : s₀.opt.entries[e]? = some en) (hp : en.ptrtgt = none)
    (ht : en.type.num = some (.int isSigned w))
    (hrun : Run.run (Trainer.stepHist chunk e) (s₀, []) is = .ok (s, hists)) :
    (en.dynval = .max → List.Forall₂ (fun (r : ObjRow) hist => r.wish.toInt isSigned w =
        (hist.seen.map (Value.toInt isSigned w)).foldl max (hist.start.toInt isSigned w))
      (s.opt.rows e) hists) ∧
    (en.dynval = .min → List.Forall₂ (fun (r : ObjRow) hist => r.wish.toInt isSigned w =
        (hist.seen.map (Value.toInt isSigned w)).foldl min (hist.start.toInt isSigned w))
      (s.opt.rows e) hists) := by
  have hw : w ≤ 64 := num_width_le ht
  have hpick : (en.dynval = .max ∨ en.dynval = .min) → List.Forall₂ (fun (r : ObjRow) hist =>
      r.wish = hist.seen.foldl ((NumType.int isSigned w).pick en.dynval) hist.start)
      (s.opt.rows e) hists := by
    intro hd
    have h0 : List.Forall₂ (fun (r : Ptr × Value × Value) (hist : ValHist) =>
        r.2.2 = hist.seen.foldl ((NumType.int isSigned w).pick en.dynval) hist.start)
        (s₀.opt.valRows e) [] := by
      rw [CfgMem.valRows, h.rows]
      exact .nil
    have hrec := runHist_inv (Q := fun s hists => List.Forall₂
      (fun (r : Ptr × Value × Value) (hist : ValHist) =>
        r.2.2 = hist.seen.foldl ((NumType.int isSigned w).pick en.dynval) hist.start)
      (s.opt.valRows e) hists) h0 (fun s s' is i hists hreach hs hR => by
        obtain ⟨hl, ha⟩ := run_inv h.linked h.aligned hreach
        obtain ⟨en', he', hfix⟩ := Pointwise.getElem?_of_map_eq (run_fixed h hreach).entries he
        have hnum := congrArg (fun x : CfgEntry => x.type.num) hfix
        obtain ⟨-, -, htgt, hdyn⟩ := fixed_fields hfix
        simp only [← hdyn] at hR hd ⊢
        exact recordHist_extreme hs hl ha he' (hnum.trans ht) hd (htgt.trans hp) hR) hrun
    exact (List.forall₂_map_left_iff.mp hrec.2).imp fun _ _ heq => heq
  constructor
  · intro hd
    refine (hpick (.inl hd)).imp fun r hist heq => ?_
    rw [heq, hd]
    exact (toInt_foldl_pick hw _ _).1
  · intro hd
    refine (hpick (.inr hd)).imp fun r hist heq => ?_
    rw [heq, hd]
    exact (toInt_foldl_pick hw _ _).2

/-- What a phase makes of the objects keeps their pointers. -/
theorem recordHist_settled {dynval : DynVal} (h : s.step chunk i = .ok s')
    (hs : s.HasPointer e d q dynval)
    (hR : List.Forall₂ (fun (r : Ptr × Value × PtrState) hist => PtrHist dynval r.2.1 r.2.2 hist)
      (s.opt.ptrRows e) hists) :
    List.Forall₂ (fun (r : Ptr × Value × PtrState) hist => PtrHist dynval r.2.1 r.2.2 hist)
      (s'.opt.ptrRows e) (s.recordHist e s' hists) := by
  have hs' := hs.step h
  obtain ⟨dm, pm, hp, -⟩ := hs.pointer
  obtain ⟨dm', pm', hp', -⟩ := hs'.pointer
  refine recordHist_forall₂ (P := fun (x : Value × PtrState) hist => PtrHist dynval x.1 x.2 hist)
    (ptrRows_step h hs) (map_fst_ptrRows hs.inv.aligned hs.one.unshared hp)
    (map_fst_ptrRows hs'.inv.aligned hs'.one.unshared hp') hR ?_
    fun hphase k r r' hist hr hr' hR => ?_
  · exact ⟨fun _ => rfl, by simp, fun _ => Nat.zero_le _⟩
  · obtain ⟨p, hproc, hopt, hev⟩ := step_process h hphase
    obtain ⟨en, rfl, hset⟩ := hs.process hproc hr hR
    obtain ⟨old, state, ⟨en₁, pm₁, he₁, -, hpm₁, hold, hst⟩, hh, -⟩ := hset.slot
    obtain ⟨en₂, he₂, hold', hst'⟩ := ptrRows_slot hp' hr'
    have hpm₂ := hp'.ptrmem
    rw [hopt] at he₂ hpm₂
    cases he₂.symm.trans he₁
    cases hpm₂.symm.trans hpm₁
    cases hold'.symm.trans hold
    cases hst'.symm.trans hst
    rw [hev]
    exact hh

/-- The values that were read are those of the events that handle the object. -/
theorem length_readsOf (evs : List ProcEvent) :
    (readsOf e k evs).length = evs.countP (·.handles e k) := by
  rw [readsOf, List.length_filterMap_eq_countP]
  refine List.countP_congr fun ev _ => ?_
  cases ev <;> simp [ProcEvent.valueOf?, ProcEvent.handles]

/-- Where the pointer of a class is processed. -/
theorem Trainer.HasPointer.place {dynval : DynVal} (h : s.HasPointer e d q dynval)
    (hpl : PtrPlace s.cfgAct s.opt e k) : e ∈ s.cfgAct ∧ k < (s.opt.ptrRows e).length := by
  obtain ⟨dm, pm, hp, -⟩ := h.pointer
  obtain ⟨en, he, hd, -⟩ := hp.entry
  have hlen : (s.opt.ptrRows e).length = dm.vMaddr.length := by
    have := (map_fst_ptrRows h.inv.aligned h.one.unshared hp).trans
      (ptrRows_addr h.inv.aligned h.one.unshared hp).1
    simpa using congrArg List.length this
  have hclass : s.opt.classOf e = some d := by simp [CfgMem.classOf, he, hd]
  cases hpl with
  | static hm he' hd' _ =>
    cases he.symm.trans he'
    rw [hd] at hd'
    cases hd'
  | obj hd' hm hk =>
    rw [h.inv.activated.classes _ _ hd'] at hm
    cases hclass.symm.trans (of_decide_eq_true (List.mem_filter.mp hm).2)
    cases hp.dynmem.symm.trans hd'
    exact ⟨(List.mem_filter.mp hm).1, hlen ▸ hk⟩

/-- What the histories say of a pointer that a cycle follows, when its section belongs to its class. -/
theorem follow_settled (h : s₀.Fresh) (ha : s₀.Activated) (hone : s₀.opt.OnePointer)
    (he : s₀.opt.entries[e]? = some en) (hd : en.dynmem = some d) (hq : en.ptrtgt = some q)
    (hlt : d < s₀.opt.dynmems.length) (hpm : s₀.opt.ptrmems[q]? = some pm)
    (hown : pm.dynmem = some d)
    (hrun : Run.run (Trainer.stepHist chunk e) (s₀, []) is = .ok (s, hists))
    (hphase : s.phase = .process) (hs : s.step chunk i = .ok s')
    (hm : .follow e k value ∈ s'.events) :
    ∃ hist, hists[k]? = some hist ∧ value ≠ 0 ∧ ReadBefore e k hist value s'.events ∧
      (Grouped (s.cfgAct.filterMap s.opt.classOf) →
        readsOf e k s'.events = [value] ∧ lastRead hist.seen = value) ∧
      (en.dynval = .ptrOnce → hist.followed = [] ∧ followsOf e k s'.events = [value]) := by
  have hptr₀ : s₀.HasPointer e d q en.dynval :=
    ⟨⟨h.linked, h.aligned, ha⟩, hone, ⟨en, he, rfl, h.linked.classes e en he (by rw [hd]; rfl)⟩,
      ⟨_, pm, ⟨⟨en, he, hd, hq⟩, List.getElem?_eq_getElem hlt, hpm⟩, hown⟩⟩
  have hreaches : ∀ {s : Trainer} {is : List LoopInput}, Run.run (Trainer.step chunk) s₀ is = .ok s →
      s.HasPointer e d q en.dynval := fun hrun =>
    Run.run_inv (P := fun s : Trainer => s.HasPointer e d q en.dynval) (fun _ _ _ => .step) hptr₀ hrun
  have h0 : List.Forall₂ (fun (r : Ptr × Value × PtrState) hist =>
      PtrHist en.dynval r.2.1 r.2.2 hist) (s₀.opt.ptrRows e) [] := by
    have hnil : s₀.opt.valRows e = [] := by rw [CfgMem.valRows, h.rows]; rfl
    rw [CfgMem.ptrRows, hnil]
    exact .nil
  obtain ⟨⟨is', hreach⟩, hrec⟩ := runHist_inv (Q := fun s hists => List.Forall₂
    (fun (r : Ptr × Value × PtrState) hist => PtrHist en.dynval r.2.1 r.2.2 hist)
    (s.opt.ptrRows e) hists) h0 (fun s s' is i hists hreach hs hR =>
      recordHist_settled hs (hreaches hreach) hR) hrun
  have hptr := hreaches hreach
  obtain ⟨p, hproc, -, hev⟩ := step_process hs hphase
  -- The object that the event is about.
  obtain ⟨evs, hevs, hall⟩ := (processActCfg_steps hproc).events
  rw [hev] at hm ⊢
  have hplace : PtrPlace s.cfgAct s.opt e k := by
    rw [hevs] at hm
    exact hall (.follow e k value) ((List.mem_append.mp hm).resolve_left List.not_mem_nil)
  obtain ⟨hact, hk⟩ := hptr.place hplace
  have hk' : k < hists.length := hrec.length_eq ▸ hk
  obtain ⟨en₁, hdyn, hset⟩ := hptr.process hproc (List.getElem?_eq_getElem hk) (hrec.get hk hk')
  obtain ⟨h0, hbefore⟩ := hset.follow value hm
  refine ⟨hists[k], List.getElem?_eq_getElem hk', h0, hbefore, fun hgr => ?_, fun honce => ?_⟩
  · -- The pointer is processed only once in this cycle.
    have hle := cycle_countP_le (k := k) hptr.inv.activated hgr hact hproc
    obtain ⟨evs₁, evs₂, hsplit, hlast⟩ := hbefore
    rw [hsplit, List.countP_append, List.countP_cons_of_pos (by simp [ProcEvent.handles])] at hle
    have hnil : ∀ evs : List ProcEvent, evs.countP (·.handles e k) = 0 → readsOf e k evs = [] :=
      fun evs hz => List.length_eq_zero_iff.mp ((length_readsOf evs).trans hz)
    have h1 : readsOf e k evs₁ = [] := hnil evs₁ (by omega)
    have h2 : readsOf e k evs₂ = [] := hnil evs₂ (by omega)
    rw [h1, List.append_nil] at hlast
    refine ⟨?_, hlast⟩
    rw [hsplit, readsOf_append, h1, List.nil_append]
    show readsOf e k ([.pointer e k value value] ++ evs₂) = [value]
    rw [readsOf_append, h2]
    simp [readsOf, ProcEvent.valueOf?]
  · obtain ⟨old, state, -, hh, -⟩ := hset.slot
    have hlen : (hists[k].add e k p.events).followed.length ≤ 1 := hh.once (hdyn.trans honce)
    have hmem : value ∈ followsOf e k p.events :=
      List.mem_filterMap.mpr ⟨_, hm, by simp [ProcEvent.followOf?]⟩
    have hpos := List.length_pos_of_mem hmem
    rw [ValHist.add, List.length_append] at hlen
    obtain ⟨x, hx⟩ := List.length_eq_one_iff.mp (show (followsOf e k p.events).length = 1 by omega)
    rw [hx] at hmem
    refine ⟨List.length_eq_zero_iff.mp (by omega), ?_⟩
    rw [hx, List.mem_singleton.mp hmem]

end Runs

/-- A class with a byte whose maximum is wished. -/
def CfgMem.oneMax : CfgMem where
  entries := [{ CfgEntry.objByte 0 with dynval := .max }]
  dynmems := [{ (default : DynMemEntry) with memSize := 8, codeAddr := 0x400, cfgAct := [0] }]
  ptrmems := []

/-- An object is allocated, and its byte is 7, then 9, then 3. -/
def LoopInput.varying : List LoopInput :=
  oneMsg (fun _ => 7) (.malloc (HackMsg.allocMsg 0x20 8 0x400) [] 0) 15 ++
    List.replicate 14 (.idle fun _ => 9) ++ List.replicate 14 (.idle fun _ => 3)

theorem run_extreme_example : ∃ s hists, Run.run (Trainer.stepHist 8 0) (.start .oneMax [0], [])
    LoopInput.varying = .ok (s, hists) ∧ hists.map (·.seen) = [[7, 9, 3]] ∧
    List.Forall₂ (fun (r : ObjRow) hist => r.wish.toInt false 8 =
      (hist.seen.map (Value.toInt false 8)).foldl max (hist.start.toInt false 8))
        (s.opt.rows 0) hists := by
  obtain ⟨⟨s, hists⟩, hs, hview⟩ := Run.exists_ok_of_map
    (f := fun x : Trainer × List ValHist => x.2.map (·.seen)) (b := [[7, 9, 3]])
    (show (Run.run (Trainer.stepHist 8 0) (.start .oneMax [0], []) LoopInput.varying).map _ = _
      by decide +kernel)
  have hl : CfgMem.oneMax.Loaded [0] := by decide
  exact ⟨s, hists, hs, hview, (run_extreme hl.fresh rfl rfl rfl hs).1 rfl⟩

end UgTrain
