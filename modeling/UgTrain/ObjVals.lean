import UgTrain.Objects

/-!
# Values of objects

What `allocDynmem` and `freeDynmem` do to the vectors of entries and pointer sections. Both go
through the entries, and add or remove elements of the vectors of an entry together with those of
the pointer section that it points to: an `ObjOp` each.

* `objOps_entry`, `objOps_ptrmem`: after all rounds, an entry or a section has seen the operations
  of the entries that reach it.
* `keepObjs`: what the operations of `freeDynmem` leave of a vector with one element per object.
-/

namespace UgTrain

/-! ## Operations on a vector -/

/-- A new element, or the removal of the element `i`. -/
abbrev VecOp := Option Nat

section Vec

variable {α : Type} {x : α} {l : List α} {ops ops' : List VecOp}

def vecOp (x : α) (l : List α) : VecOp → List α
  | none => l ++ [x]
  | some i => l.eraseIdx i

def vecOps (x : α) (ops : List VecOp) (l : List α) : List α := ops.foldl (vecOp x) l

@[simp] theorem vecOps_nil : vecOps x [] l = l := rfl

@[simp] theorem vecOps_cons {op : VecOp} : vecOps x (op :: ops) l = vecOps x ops (vecOp x l op) := rfl

theorem vecOps_append : vecOps x (ops ++ ops') l = vecOps x ops' (vecOps x ops l) := by
  simp [vecOps]

theorem vecOps_replicate (k : Nat) : vecOps x (List.replicate k none) l = l ++ List.replicate k x := by
  induction k generalizing l with
  | zero => simp
  | succ k ih => simp [List.replicate_succ, vecOp, ih]

/-- The positions that `free_dynmem` removes: `ovIdx` is the position of the value of the next
object, `n` the number of values. -/
def freeMarks (ovIdx n : Nat) : List Ptr → List Nat
  | [] => []
  | m :: mvec =>
    if ovIdx < n then
      if m = 0 then ovIdx :: freeMarks ovIdx (n - 1) mvec else freeMarks (ovIdx + 1) n mvec
    else []

/-- The elements of the objects that are not marked. -/
def keepObjs (mvec : List Ptr) (l : List α) : List α :=
  ((mvec.zip l).filter (·.1 ≠ 0)).map (·.2)

theorem keepObjs_cons {m : Ptr} {mvec : List Ptr} {y : α} :
    keepObjs (m :: mvec) (y :: l) = if m = 0 then keepObjs mvec l else y :: keepObjs mvec l := by
  by_cases hm : m = 0#64 <;> simp [keepObjs, hm]

theorem vecOps_freeMarks (mvec : List Ptr) (pre l : List α) (h : l.length ≤ mvec.length) :
    vecOps x ((freeMarks pre.length (pre.length + l.length) mvec).map some) (pre ++ l) =
      pre ++ keepObjs mvec l := by
  induction mvec generalizing pre l with
  | nil =>
    obtain rfl : l = [] := List.length_eq_zero_iff.mp (by simpa using h)
    simp [freeMarks, keepObjs]
  | cons m mvec ih =>
    cases l with
    | nil => simp [freeMarks, keepObjs]
    | cons y l =>
      have hl : l.length ≤ mvec.length := by simpa using h
      unfold freeMarks
      rw [if_pos (by simp)]
      by_cases hm : m = 0
      · have hn : pre.length + (y :: l).length - 1 = pre.length + l.length := by simp
        rw [if_pos hm, List.map_cons, vecOps_cons, hn]
        have he : vecOp x (pre ++ y :: l) (some pre.length) = pre ++ l := by
          simp [vecOp, List.eraseIdx_append_of_length_le]
        rw [he, ih pre l hl, keepObjs_cons, if_pos hm]
      · have hn : pre.length + (y :: l).length = (pre ++ [y]).length + l.length := by
          simp only [List.length_cons, List.length_append, List.length_nil]
          omega
        have hp : pre.length + 1 = (pre ++ [y]).length := by simp
        have hs : pre ++ y :: l = (pre ++ [y]) ++ l := by simp
        rw [if_neg hm, hn, hp, hs, ih (pre ++ [y]) l hl, keepObjs_cons, if_neg hm]
        simp

/-- **What is left** of a vector with at most one element per object. -/
theorem vecOps_free {mvec : List Ptr} (h : l.length ≤ mvec.length) :
    vecOps x ((freeMarks 0 l.length mvec).map some) l = keepObjs mvec l := by
  simpa using vecOps_freeMarks (x := x) mvec [] l h

/-- The number of elements, where each one that is removed is there. -/
theorem length_vecOps_free (mvec : List Ptr) (ovIdx n : Nat) (hn : ovIdx ≤ n)
    (hl : n ≤ l.length) :
    (vecOps x ((freeMarks ovIdx n mvec).map some) l).length + (freeMarks ovIdx n mvec).length =
      l.length := by
  induction mvec generalizing ovIdx n l with
  | nil => simp [freeMarks]
  | cons m mvec ih =>
    unfold freeMarks
    split
    · rename_i hlt
      split
      · have hel : (l.eraseIdx ovIdx).length = l.length - 1 :=
          List.length_eraseIdx_of_lt (by omega)
        have := ih (l := l.eraseIdx ovIdx) ovIdx (n - 1) (by omega) (by omega)
        simp only [List.map_cons, vecOps_cons, vecOp, List.length_cons]
        omega
      · exact ih (ovIdx + 1) n (by omega) hl
    · simp

/-- Removing is from the front of a vector with more elements, too. -/
theorem freeMarks_length (mvec : List Ptr) (ovIdx n : Nat) (h : n ≤ ovIdx + mvec.length) :
    (freeMarks ovIdx n mvec).length = ((mvec.take (n - ovIdx)).filter (· = 0)).length := by
  induction mvec generalizing ovIdx n with
  | nil => simp [freeMarks]
  | cons m mvec ih =>
    unfold freeMarks
    simp only [List.length_cons] at h
    split
    · rename_i hlt
      obtain ⟨k, hk⟩ : ∃ k, n - ovIdx = k + 1 := ⟨n - ovIdx - 1, by omega⟩
      rw [hk, List.take_succ_cons]
      split
      · rename_i hm
        have hk' : n - 1 - ovIdx = k := by omega
        rw [List.length_cons, ih ovIdx (n - 1) (by omega), hk',
          List.filter_cons_of_pos (by simpa using hm), List.length_cons]
      · rename_i hm
        have hk' : n - (ovIdx + 1) = k := by omega
        rw [ih (ovIdx + 1) n (by omega), hk', List.filter_cons_of_neg (by simpa using hm)]
    · rename_i hlt
      have hk : n - ovIdx = 0 := by omega
      simp [hk]

end Vec

/-! ## Operations on an entry and on its pointer section -/

def CfgEntry.vecOp (en : CfgEntry) : VecOp → CfgEntry
  | none => en.pushVal
  | some i => en.eraseVal i

def PtrMemEntry.vecOp (pm : PtrMemEntry) : VecOp → PtrMemEntry
  | none => pm.pushState
  | some i => pm.eraseState i

/-- The text buffer of a new object. -/
def CfgEntry.newCstr (en : CfgEntry) : Option (List UInt8) :=
  if en.type.isCstrp || en.type.isCstr then some (List.replicate (maxCstr + 1) 0) else none

def CfgEntry.vecOps (ops : List VecOp) (en : CfgEntry) : CfgEntry := ops.foldl CfgEntry.vecOp en

def PtrMemEntry.vecOps (ops : List VecOp) (pm : PtrMemEntry) : PtrMemEntry :=
  ops.foldl PtrMemEntry.vecOp pm

theorem CfgEntry.vecOps_eq (ops : List VecOp) (en : CfgEntry) :
    en.vecOps ops = { en with vals := { en.vals with
      vOldval := UgTrain.vecOps 0 ops en.vals.vOldval
      vValue := UgTrain.vecOps en.vals.value ops en.vals.vValue
      vCstr := UgTrain.vecOps en.newCstr ops en.vals.vCstr } } := by
  induction ops generalizing en with
  | nil => rfl
  | cons op ops ih =>
    have hcons : en.vecOps (op :: ops) = (en.vecOp op).vecOps ops := rfl
    rw [hcons, ih]
    cases op <;> rfl

theorem PtrMemEntry.vecOps_eq (ops : List VecOp) (pm : PtrMemEntry) :
    pm.vecOps ops = { pm with
      vState := UgTrain.vecOps .init ops pm.vState
      vOffs := UgTrain.vecOps 0 ops pm.vOffs } := by
  induction ops generalizing pm with
  | nil => rfl
  | cons op ops ih =>
    have hcons : pm.vecOps (op :: ops) = (pm.vecOp op).vecOps ops := rfl
    rw [hcons, ih]
    cases op <;> rfl

/-- The entries of a pointer section. -/
def CfgMem.targets (cfg : CfgMem) (ptrtgt : Option Nat) : List Nat :=
  (ptrtgt.bind (cfg.ptrmems[·]?)).elim [] (·.cfg)

/-- An operation on the entry `e` and on the section it points to. -/
def CfgMem.objOp (e : Nat) (ptrtgt : Option Nat) (cfg : CfgMem) (op : VecOp) : CfgMem :=
  { cfg with entries := cfg.entries.modify e (·.vecOp op) }.modifyPtrmem ptrtgt (·.vecOp op)
    (·.vecOp op)

def CfgMem.objOps (e : Nat) (ptrtgt : Option Nat) (ops : List VecOp) (cfg : CfgMem) : CfgMem :=
  ops.foldl (CfgMem.objOp e ptrtgt) cfg

section Ops

variable {cfg : CfgMem} {e e' p : Nat} {tgt : Option Nat} {op : VecOp} {ops : List VecOp}

theorem getElem?_foldl_modify {α : Type} {g : α → α} {l : List Nat} (hl : l.Nodup) (es : List α)
    (i : Nat) : (l.foldl (fun es e => es.modify e g) es)[i]? =
      es[i]?.map fun x => if i ∈ l then g x else x := by
  induction l generalizing es with
  | nil => simp
  | cons j l ih =>
    obtain ⟨hj, hl⟩ := List.nodup_cons.mp hl
    rw [List.foldl_cons, ih hl, List.getElem?_modify, Option.map_eq_map, Option.map_map]
    refine congrArg (Option.map · _) (funext fun x => ?_)
    by_cases hji : j = i
    · subst hji
      simp [hj]
    · simp [hji, Ne.symm hji]

/-- Each section has its entries once. -/
def CfgMem.CfgNodup (cfg : CfgMem) : Prop := ∀ pm ∈ cfg.ptrmems, pm.cfg.Nodup

theorem CfgMem.CfgNodup.targets (h : cfg.CfgNodup) (tgt : Option Nat) : (cfg.targets tgt).Nodup := by
  unfold CfgMem.targets
  cases hp : tgt.bind (cfg.ptrmems[·]?) with
  | none => exact List.nodup_nil
  | some pm =>
    obtain ⟨p, -, hpm⟩ := Option.bind_eq_some_iff.mp hp
    exact h pm (List.mem_of_getElem? hpm)

theorem modifyPtrmem_entry (h : cfg.CfgNodup) (f : PtrMemEntry → PtrMemEntry)
    (g : CfgEntry → CfgEntry) : (cfg.modifyPtrmem tgt f g).entries[e]? =
      cfg.entries[e]?.map fun en => if e ∈ cfg.targets tgt then g en else en := by
  have hn := h.targets tgt
  unfold CfgMem.modifyPtrmem
  cases hp : tgt.bind (cfg.ptrmems[·]?) with
  | none =>
    have ht : cfg.targets tgt = [] := by simp [CfgMem.targets, hp]
    have hb : (tgt.bind fun p => (cfg.ptrmems[p]?).map (p, ·)) = none := by
      cases tgt with
      | none => rfl
      | some p => simpa using hp
    simp [hb, ht]
  | some pm =>
    obtain ⟨p, rfl, hpm⟩ := Option.bind_eq_some_iff.mp hp
    have ht : cfg.targets (some p) = pm.cfg := by simp [CfgMem.targets, hpm]
    simp only [Option.bind_some, hpm, Option.map_some, ht]
    exact getElem?_foldl_modify (ht ▸ hn) _ _

theorem modifyPtrmem_ptrmem (f : PtrMemEntry → PtrMemEntry) (g : CfgEntry → CfgEntry) :
    (cfg.modifyPtrmem tgt f g).ptrmems[p]? =
      cfg.ptrmems[p]?.map fun pm => if tgt = some p then f pm else pm := by
  unfold CfgMem.modifyPtrmem
  split
  · rename_i hb
    cases hp : cfg.ptrmems[p]? with
    | none => rfl
    | some pm =>
      have hne : tgt ≠ some p := by
        rintro rfl
        simp [hp] at hb
      simp [hne]
  · rename_i q pm hb
    obtain ⟨p', rfl, hpm⟩ := Option.bind_eq_some_iff.mp hb
    obtain ⟨pm', hpm, he⟩ := Option.map_eq_some_iff.mp hpm
    cases he
    by_cases hqp : q = p
    · subst hqp
      have hlt := (List.getElem?_eq_some_iff.mp hpm).1
      rw [hpm, Option.map_some, if_pos rfl]
      exact List.getElem?_set_self hlt
    · simp [hqp, List.getElem?_set_ne hqp]

theorem modifyPtrmem_dynmems (f : PtrMemEntry → PtrMemEntry) (g : CfgEntry → CfgEntry) :
    (cfg.modifyPtrmem tgt f g).dynmems = cfg.dynmems := by
  unfold CfgMem.modifyPtrmem
  split <;> rfl

/-- The entries that an operation reaches. -/
def CfgMem.Reaches (cfg : CfgMem) (e : Nat) (tgt : Option Nat) (e' : Nat) : Prop :=
  e' = e ∨ e' ∈ cfg.targets tgt

instance : Decidable (cfg.Reaches e tgt e') := inferInstanceAs (Decidable (_ ∨ _))

/-- The config but for the values and what changes with them. -/
structure CfgMem.SameLists (cfg cfg' : CfgMem) : Prop where
  cfgs : cfg'.ptrmems.map (·.cfg) = cfg.ptrmems.map (·.cfg)
  dynmems : cfg'.dynmems = cfg.dynmems
  length : cfg'.entries.length = cfg.entries.length

theorem CfgMem.SameLists.targets {cfg' : CfgMem} (h : cfg.SameLists cfg') (tgt : Option Nat) :
    cfg'.targets tgt = cfg.targets tgt := by
  unfold CfgMem.targets
  cases tgt with
  | none => rfl
  | some p =>
    have := congrArg (·[p]?) h.cfgs
    simp only [List.getElem?_map] at this
    cases h1 : cfg'.ptrmems[p]? <;> cases h2 : cfg.ptrmems[p]? <;> simp_all

theorem CfgMem.SameLists.refl (cfg : CfgMem) : cfg.SameLists cfg := ⟨rfl, rfl, rfl⟩

theorem CfgMem.SameLists.trans {cfg' cfg'' : CfgMem} (h : cfg.SameLists cfg')
    (h' : cfg'.SameLists cfg'') : cfg.SameLists cfg'' :=
  ⟨h'.cfgs.trans h.cfgs, h'.dynmems.trans h.dynmems, h'.length.trans h.length⟩

theorem CfgMem.SameLists.nodup {cfg' : CfgMem} (h : cfg.SameLists cfg') (hn : cfg.CfgNodup) :
    cfg'.CfgNodup := by
  intro pm hpm
  have hm : pm.cfg ∈ cfg'.ptrmems.map (·.cfg) := List.mem_map_of_mem hpm
  rw [h.cfgs] at hm
  obtain ⟨pm', hpm', he⟩ := List.mem_map.mp hm
  exact he ▸ hn pm' hpm'

theorem objOp_sameLists : cfg.SameLists (cfg.objOp e tgt op) := by
  refine ⟨?_, modifyPtrmem_dynmems _ _, ?_⟩
  · refine List.ext_getElem? fun p => ?_
    rw [List.getElem?_map, List.getElem?_map, CfgMem.objOp, modifyPtrmem_ptrmem, Option.map_map]
    refine congrArg (Option.map · _) (funext fun pm => ?_)
    by_cases h : tgt = some p
    · cases op <;> simp [h, PtrMemEntry.vecOp, PtrMemEntry.pushState, PtrMemEntry.eraseState]
    · simp [h]
  · have hfold : ∀ (l : List Nat) (es : List CfgEntry) (g : CfgEntry → CfgEntry),
        (l.foldl (fun es e => es.modify e g) es).length = es.length := by
      intro l
      induction l with
      | nil => intro es g; rfl
      | cons e l ih => intro es g; rw [List.foldl_cons, ih, List.length_modify]
    unfold CfgMem.objOp CfgMem.modifyPtrmem
    split
    · exact List.length_modify ..
    · rw [hfold]
      exact List.length_modify ..

theorem objOp_entry (hn : cfg.CfgNodup) (he : e ∉ cfg.targets tgt) :
    (cfg.objOp e tgt op).entries[e']? =
      cfg.entries[e']?.map fun en => if cfg.Reaches e tgt e' then en.vecOp op else en := by
  have hn' : CfgMem.CfgNodup { cfg with entries := cfg.entries.modify e (·.vecOp op) } := hn
  rw [CfgMem.objOp, modifyPtrmem_entry hn']
  have ht : CfgMem.targets { cfg with entries := cfg.entries.modify e (·.vecOp op) } tgt =
    cfg.targets tgt := rfl
  rw [ht, List.getElem?_modify, Option.map_eq_map, Option.map_map]
  refine congrArg (Option.map · _) (funext fun en => ?_)
  by_cases h : e = e'
  · subst h
    simp [CfgMem.Reaches, he]
  · simp [CfgMem.Reaches, h, Ne.symm h]

theorem objOps_sameLists : cfg.SameLists (cfg.objOps e tgt ops) := by
  induction ops generalizing cfg with
  | nil => exact .refl cfg
  | cons op ops ih => exact objOp_sameLists.trans ih

theorem objOps_entry (hn : cfg.CfgNodup) (he : e ∉ cfg.targets tgt) :
    (cfg.objOps e tgt ops).entries[e']? =
      cfg.entries[e']?.map fun en => if cfg.Reaches e tgt e' then en.vecOps ops else en := by
  induction ops generalizing cfg with
  | nil =>
    show cfg.entries[e']? = _
    have hid : (fun en : CfgEntry => if cfg.Reaches e tgt e' then en.vecOps [] else en) = id := by
      funext en
      split <;> rfl
    rw [hid, Option.map_id_fun, id]
  | cons op ops ih =>
    have hs : cfg.SameLists (cfg.objOp e tgt op) := objOp_sameLists
    have hstep : cfg.objOps e tgt (op :: ops) = (cfg.objOp e tgt op).objOps e tgt ops := rfl
    rw [hstep, ih (hs.nodup hn) (by rw [hs.targets]; exact he), objOp_entry hn he, Option.map_map]
    refine congrArg (Option.map · _) (funext fun en => ?_)
    have hr : (cfg.objOp e tgt op).Reaches e tgt e' ↔ cfg.Reaches e tgt e' := by
      unfold CfgMem.Reaches
      rw [hs.targets]
    by_cases h : cfg.Reaches e tgt e'
    · simp only [Function.comp, if_pos h, if_pos (hr.mpr h)]
      rfl
    · simp only [Function.comp, if_neg h, if_neg (mt hr.mp h)]

theorem objOps_ptrmem : (cfg.objOps e tgt ops).ptrmems[p]? =
    cfg.ptrmems[p]?.map fun pm => if tgt = some p then pm.vecOps ops else pm := by
  induction ops generalizing cfg with
  | nil =>
    show cfg.ptrmems[p]? = _
    have hid : (fun pm : PtrMemEntry => if tgt = some p then pm.vecOps [] else pm) = id := by
      funext pm
      split <;> rfl
    rw [hid, Option.map_id_fun, id]
  | cons op ops ih =>
    have hstep : cfg.objOps e tgt (op :: ops) = (cfg.objOp e tgt op).objOps e tgt ops := rfl
    rw [hstep, ih, CfgMem.objOp, modifyPtrmem_ptrmem, Option.map_map]
    refine congrArg (Option.map · _) (funext fun pm => ?_)
    by_cases h : tgt = some p <;> simp [h, PtrMemEntry.vecOps]

end Ops

/-! ## The rounds of both functions -/

/-- The entries of classes are in no pointer section. -/
structure CfgMem.Sections (cfg : CfgMem) : Prop where
  nodup : cfg.CfgNodup
  classes : ∀ e en, cfg.entries[e]? = some en → en.dynmem.isSome → ∀ tgt, e ∉ cfg.targets tgt

/-- The section that an entry points to. -/
def CfgMem.tgt (cfg : CfgMem) (e : Nat) : Option Nat := cfg.entries[e]?.bind (·.ptrtgt)

/-- What a function does with the objects and the number of values of an entry. -/
abbrev RoundOps := List Ptr → Nat → List VecOp

def allocOps : RoundOps := fun mvec n => List.replicate (mvec.length - n) none

def freeOps : RoundOps := fun mvec n => (freeMarks 0 n mvec).map some

def CfgMem.opsOf (f : RoundOps) (cfg : CfgMem) (e : Nat) : List VecOp :=
  (cfg.entries[e]?.bind fun en => (cfg.objs en).map fun mvec => f mvec en.vals.vOldval.length).getD []

/-- The operations of the first `k` rounds on the entry `e'`. -/
def CfgMem.entryOps (f : RoundOps) (cfg : CfgMem) (k e' : Nat) : List VecOp :=
  (List.range k).flatMap fun e => if cfg.Reaches e (cfg.tgt e) e' then cfg.opsOf f e else []

/-- The operations of the first `k` rounds on the section `p`. -/
def CfgMem.ptrmemOps (f : RoundOps) (cfg : CfgMem) (k p : Nat) : List VecOp :=
  (List.range k).flatMap fun e => if cfg.tgt e = some p then cfg.opsOf f e else []

section Rounds

variable {cfg : CfgMem} {e e' p k : Nat} {en : CfgEntry} {f : RoundOps}

theorem allocVals_eq (hn : cfg.CfgNodup) (he : cfg.entries[e]? = some en)
    (ht : e ∉ cfg.targets en.ptrtgt) {memIdx : Nat} (hm : memIdx ≤ en.vals.vOldval.length) (n : Nat) :
    allocVals e cfg memIdx n = cfg.objOps e en.ptrtgt
      (List.replicate (memIdx + n - en.vals.vOldval.length) none) := by
  induction n generalizing cfg en memIdx with
  | zero =>
    have h0 : memIdx + 0 - en.vals.vOldval.length = 0 := by omega
    rw [h0]
    rfl
  | succ n ih =>
    rw [allocVals, he]
    dsimp only
    split
    · rename_i hle
      have hs : cfg.SameLists (cfg.objOp e en.ptrtgt none) := objOp_sameLists
      have he' : (cfg.objOp e en.ptrtgt none).entries[e]? = some (en.vecOp none) := by
        rw [objOp_entry hn ht, he]
        simp [CfgMem.Reaches]
      have hlen : (en.vecOp none).vals.vOldval.length = en.vals.vOldval.length + 1 := by
        simp [CfgEntry.vecOp, CfgEntry.pushVal]
      have htgt : (en.vecOp none).ptrtgt = en.ptrtgt := rfl
      have hih := ih (hs.nodup hn) he' (by rw [htgt, hs.targets]; exact ht)
        (show memIdx + 1 ≤ _ by omega)
      have hk : memIdx + (n + 1) - en.vals.vOldval.length =
        (memIdx + 1 + n - (en.vecOp none).vals.vOldval.length) + 1 := by omega
      rw [hk, List.replicate_succ]
      exact hih
    · rename_i hlt
      have hk : memIdx + (n + 1) - en.vals.vOldval.length =
        memIdx + 1 + n - en.vals.vOldval.length := by omega
      rw [hk]
      exact ih hn he ht (by omega)

theorem freeVals_eq (hn : cfg.CfgNodup) (he : cfg.entries[e]? = some en)
    (ht : e ∉ cfg.targets en.ptrtgt) (mvec : List Ptr) (ovIdx : Nat) :
    freeVals e cfg ovIdx mvec = cfg.objOps e en.ptrtgt
      ((freeMarks ovIdx en.vals.vOldval.length mvec).map some) := by
  induction mvec generalizing cfg en ovIdx with
  | nil => rfl
  | cons m mvec ih =>
    rw [freeVals, freeMarks, he]
    dsimp only
    split
    · rename_i hlt
      split
      · have hs : cfg.SameLists (cfg.objOp e en.ptrtgt (some ovIdx)) := objOp_sameLists
        have he' : (cfg.objOp e en.ptrtgt (some ovIdx)).entries[e]? =
            some (en.vecOp (some ovIdx)) := by
          rw [objOp_entry hn ht, he]
          simp [CfgMem.Reaches]
        have hlen : (en.vecOp (some ovIdx)).vals.vOldval.length = en.vals.vOldval.length - 1 := by
          simp [CfgEntry.vecOp, CfgEntry.eraseVal, List.length_eraseIdx_of_lt hlt]
        have htgt : (en.vecOp (some ovIdx)).ptrtgt = en.ptrtgt := rfl
        have hih := ih (hs.nodup hn) he' (by rw [htgt, hs.targets]; exact ht) ovIdx
        rw [hlen] at hih
        exact hih
      · exact ih hn he ht (ovIdx + 1)
    · rfl

theorem allocEntry_eq (h : cfg.Sections) (e : Nat) :
    allocEntry cfg e = cfg.objOps e (cfg.tgt e) (cfg.opsOf allocOps e) := by
  unfold allocEntry CfgMem.opsOf CfgMem.tgt
  cases he : cfg.entries[e]? with
  | none => rfl
  | some en =>
    simp only [Option.bind_some]
    cases ho : cfg.objs en with
    | none => rfl
    | some mvec =>
      have hd : en.dynmem.isSome := by
        unfold CfgMem.objs at ho
        cases hd : en.dynmem with
        | none => simp [hd] at ho
        | some d => rfl
      have := allocVals_eq h.nodup he (h.classes e en he hd _) (Nat.zero_le _) mvec.length
      simpa [allocOps] using this

theorem freeEntry_eq (h : cfg.Sections) (e : Nat) :
    freeEntry cfg e = cfg.objOps e (cfg.tgt e) (cfg.opsOf freeOps e) := by
  unfold freeEntry CfgMem.opsOf CfgMem.tgt
  cases he : cfg.entries[e]? with
  | none => rfl
  | some en =>
    simp only [Option.bind_some]
    cases ho : cfg.objs en with
    | none => rfl
    | some mvec =>
      have hd : en.dynmem.isSome := by
        unfold CfgMem.objs at ho
        cases hd : en.dynmem with
        | none => simp [hd] at ho
        | some d => rfl
      exact freeVals_eq h.nodup he (h.classes e en he hd _) mvec 0

@[simp] theorem vecOps_dynmem (ops : List VecOp) : (en.vecOps ops).dynmem = en.dynmem := by
  rw [CfgEntry.vecOps_eq]

@[simp] theorem vecOps_ptrtgt (ops : List VecOp) : (en.vecOps ops).ptrtgt = en.ptrtgt := by
  rw [CfgEntry.vecOps_eq]

theorem CfgEntry.vecOps_append (ops ops' : List VecOp) :
    en.vecOps (ops ++ ops') = (en.vecOps ops).vecOps ops' := by
  simp [CfgEntry.vecOps]

theorem PtrMemEntry.vecOps_append {pm : PtrMemEntry} (ops ops' : List VecOp) :
    pm.vecOps (ops ++ ops') = (pm.vecOps ops).vecOps ops' := by
  simp [PtrMemEntry.vecOps]

/-- An entry of a class only sees its own round. -/
theorem reaches_class (h : cfg.Sections) (he : cfg.entries[e]? = some en)
    (hd : en.dynmem.isSome) (e' : Nat) (tgt : Option Nat) : cfg.Reaches e' tgt e ↔ e = e' := by
  refine or_iff_left ?_
  exact h.classes e en he hd tgt

theorem opsOf_eq_nil (he : cfg.entries[e]? = some en) (hd : en.dynmem = none) :
    cfg.opsOf f e = [] := by
  simp [CfgMem.opsOf, he, CfgMem.objs, hd]

/-- What the first rounds have done. -/
structure CfgMem.Rounds (cfg : CfgMem) (f : RoundOps) (k : Nat) (cfg' : CfgMem) : Prop where
  same : cfg.SameLists cfg'
  entry : ∀ e', cfg'.entries[e']? = cfg.entries[e']?.map (CfgEntry.vecOps (cfg.entryOps f k e'))
  ptrmem : ∀ p, cfg'.ptrmems[p]? = cfg.ptrmems[p]?.map (PtrMemEntry.vecOps (cfg.ptrmemOps f k p))

theorem CfgMem.Rounds.sections {cfg' : CfgMem} (h : cfg.Rounds f k cfg') (hs : cfg.Sections) :
    cfg'.Sections := by
  refine ⟨h.same.nodup hs.nodup, fun e en he hd tgt => ?_⟩
  rw [h.same.targets]
  rw [h.entry] at he
  obtain ⟨en', he', rfl⟩ := Option.map_eq_some_iff.mp he
  exact hs.classes e en' he' (by simpa using hd) tgt

theorem CfgMem.Rounds.tgt {cfg' : CfgMem} (h : cfg.Rounds f k cfg') (e : Nat) :
    cfg'.tgt e = cfg.tgt e := by
  unfold CfgMem.tgt
  rw [h.entry]
  cases cfg.entries[e]? <;> simp

/-- The round of an entry does what it would have done at the start. -/
theorem CfgMem.Rounds.opsOf {cfg' : CfgMem} (h : cfg.Rounds f k cfg') (hs : cfg.Sections) :
    cfg'.opsOf f k = cfg.opsOf f k := by
  cases he : cfg.entries[k]? with
  | none =>
    have he' := h.entry k
    rw [he, Option.map_none] at he'
    simp [CfgMem.opsOf, he, he']
  | some en =>
    have he' := h.entry k
    rw [he, Option.map_some] at he'
    cases hd : en.dynmem with
    | none => rw [opsOf_eq_nil he hd, opsOf_eq_nil he' (by simpa using hd)]
    | some d =>
      have hnil : cfg.entryOps f k k = [] := by
        refine List.flatMap_eq_nil_iff.mpr fun e hm => if_neg fun hr => ?_
        have hek := (reaches_class hs he (by rw [hd]; rfl) e _).mp hr
        exact absurd (List.mem_range.mp hm) (by omega)
      rw [hnil] at he'
      have hobjs : cfg'.objs en = cfg.objs en := by
        unfold CfgMem.objs
        rw [h.same.dynmems]
      simp [CfgMem.opsOf, he, he', hobjs, CfgEntry.vecOps]

/-- **After `k` rounds**, each of them an operation on an entry and its section. -/
theorem rounds_foldl {F : CfgMem → Nat → CfgMem}
    (hF : ∀ cfg e, cfg.Sections → F cfg e = cfg.objOps e (cfg.tgt e) (cfg.opsOf f e))
    (hs : cfg.Sections) (k : Nat) : cfg.Rounds f k ((List.range k).foldl F cfg) := by
  induction k with
  | zero =>
    have hen : CfgEntry.vecOps [] = id := rfl
    have hpm : PtrMemEntry.vecOps [] = id := rfl
    refine ⟨.refl cfg, fun e' => ?_, fun p => ?_⟩
    · rw [show cfg.entryOps f 0 e' = [] from rfl, hen, Option.map_id_fun]
      rfl
    · rw [show cfg.ptrmemOps f 0 p = [] from rfl, hpm, Option.map_id_fun]
      rfl
  | succ k ih =>
    rw [List.range_succ, List.foldl_append, List.foldl_cons, List.foldl_nil]
    have hs' := ih.sections hs
    rw [hF _ k hs', ih.tgt, ih.opsOf hs]
    by_cases hnil : cfg.opsOf f k = []
    · have hentry : ∀ e', cfg.entryOps f (k + 1) e' = cfg.entryOps f k e' := by
        intro e'
        simp [CfgMem.entryOps, List.range_succ, hnil]
      have hptr : ∀ p, cfg.ptrmemOps f (k + 1) p = cfg.ptrmemOps f k p := by
        intro p
        simp [CfgMem.ptrmemOps, List.range_succ, hnil]
      rw [hnil]
      exact ⟨ih.same, fun e' => by rw [hentry]; exact ih.entry e',
        fun p => by rw [hptr]; exact ih.ptrmem p⟩
    · have hmem : k ∉ ((List.range k).foldl F cfg).targets (cfg.tgt k) := by
        cases he : cfg.entries[k]? with
        | none => simp [CfgMem.opsOf, he] at hnil
        | some en =>
          cases hd : en.dynmem with
          | none => exact absurd (opsOf_eq_nil he hd) hnil
          | some d =>
            rw [ih.same.targets]
            exact hs.classes k en he (by rw [hd]; rfl) _
      refine ⟨ih.same.trans objOps_sameLists, fun e' => ?_, fun p => ?_⟩
      · rw [objOps_entry hs'.nodup hmem, ih.entry, Option.map_map]
        refine congrArg (Option.map · _) (funext fun en => ?_)
        have hr : ((List.range k).foldl F cfg).Reaches k (cfg.tgt k) e' ↔
            cfg.Reaches k (cfg.tgt k) e' := by
          unfold CfgMem.Reaches
          rw [ih.same.targets]
        have happ : cfg.entryOps f (k + 1) e' = cfg.entryOps f k e' ++
            if cfg.Reaches k (cfg.tgt k) e' then cfg.opsOf f k else [] := by
          simp [CfgMem.entryOps, List.range_succ]
        rw [happ, CfgEntry.vecOps_append]
        by_cases h : cfg.Reaches k (cfg.tgt k) e'
        · simp only [Function.comp, if_pos h, if_pos (hr.mpr h)]
        · simp only [Function.comp, if_neg h, if_neg (mt hr.mp h)]
          rfl
      · rw [objOps_ptrmem, ih.ptrmem, Option.map_map]
        refine congrArg (Option.map · _) (funext fun pm => ?_)
        have happ : cfg.ptrmemOps f (k + 1) p = cfg.ptrmemOps f k p ++
            if cfg.tgt k = some p then cfg.opsOf f k else [] := by
          simp [CfgMem.ptrmemOps, List.range_succ]
        rw [happ, PtrMemEntry.vecOps_append]
        by_cases h : cfg.tgt k = some p
        · simp only [Function.comp, if_pos h]
        · simp only [Function.comp, if_neg h]
          rfl

/-- **`alloc_dynmem`** is the rounds of all entries. -/
theorem allocDynmem_rounds (hs : cfg.Sections) :
    cfg.Rounds allocOps cfg.entries.length (allocDynmem cfg) :=
  rounds_foldl (fun _ e h => allocEntry_eq h e) hs _

/-- **`free_dynmem`**, as far as it removes values. -/
theorem freeEntries_rounds (hs : cfg.Sections) : cfg.Rounds freeOps cfg.entries.length
    ((List.range cfg.entries.length).foldl freeEntry cfg) :=
  rounds_foldl (fun _ e h => freeEntry_eq h e) hs _

end Rounds

end UgTrain
