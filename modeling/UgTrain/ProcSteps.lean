import UgTrain.Pointwise
import UgTrain.Process
import UgTrain.Run

/-!
# The steps of the processing

`Prim C` is one elementary change that the processing makes to its state: what may happen to values,
objects and pointers, and which event it leaves; `C` restricts the events. A cycle is a sequence of
such changes (`processActCfg_steps`), so that what each of them keeps, a cycle keeps.

* `Options.Same`: the config but for the values, with vectors of the same lengths.
* `Place`: where an activated entry may be processed, and for which slot.
-/

namespace UgTrain

open CLib

/-! ## What stays -/

def EntryVals.dims (v : EntryVals) : Nat × Nat × Nat :=
  (v.vOldval.length, v.vValue.length, v.vCstr.length)

/-- The part of an entry that the processing does not change. -/
def CfgEntry.shape (en : CfgEntry) : CfgEntry × (Nat × Nat × Nat) :=
  ({ en with vals := ⟨0, 0, none, false, [], [], []⟩ }, en.vals.dims)

def DynMemEntry.shape (dm : DynMemEntry) : DynMemEntry × Nat :=
  ({ dm with vMaddr := [], objIdx := 0 }, dm.vMaddr.length)

def PtrMemEntry.shape (pm : PtrMemEntry) : PtrMemEntry × Nat × Nat :=
  ({ pm with vState := [], vOffs := [] }, pm.vState.length, pm.vOffs.length)

structure Options.Same (opt opt' : Options) : Prop where
  entries : opt'.entries.map CfgEntry.shape = opt.entries.map CfgEntry.shape
  dynmems : opt'.dynmems.map DynMemEntry.shape = opt.dynmems.map DynMemEntry.shape
  ptrmems : opt'.ptrmems.map PtrMemEntry.shape = opt.ptrmems.map PtrMemEntry.shape
  libs : opt'.libs = opt.libs
  valOnStack : opt'.valOnStack = opt.valOnStack

section Same

variable {opt opt' opt'' : Options} {e d p : Nat}

@[refl] theorem Options.Same.refl (opt : Options) : opt.Same opt := ⟨rfl, rfl, rfl, rfl, rfl⟩

theorem Options.Same.trans (h : opt.Same opt') (h' : opt'.Same opt'') : opt.Same opt'' :=
  ⟨h'.entries.trans h.entries, h'.dynmems.trans h.dynmems, h'.ptrmems.trans h.ptrmems,
    h'.libs.trans h.libs, h'.valOnStack.trans h.valOnStack⟩

theorem Options.Same.symm (h : opt.Same opt') : opt'.Same opt :=
  ⟨h.entries.symm, h.dynmems.symm, h.ptrmems.symm, h.libs.symm, h.valOnStack.symm⟩

/-- An element of a list whose images are the same. -/
theorem Options.Same.entry (h : opt.Same opt') {en : CfgEntry} (he : opt.entries[e]? = some en) :
    ∃ en', opt'.entries[e]? = some en' ∧ en'.shape = en.shape :=
  Pointwise.getElem?_of_map_eq h.entries he

theorem Options.Same.dynmem (h : opt.Same opt') {dm : DynMemEntry} (hd : opt.dynmems[d]? = some dm) :
    ∃ dm', opt'.dynmems[d]? = some dm' ∧ dm'.shape = dm.shape :=
  Pointwise.getElem?_of_map_eq h.dynmems hd

theorem Options.Same.ptrmem (h : opt.Same opt') {pm : PtrMemEntry} (hp : opt.ptrmems[p]? = some pm) :
    ∃ pm', opt'.ptrmems[p]? = some pm' ∧ pm'.shape = pm.shape :=
  Pointwise.getElem?_of_map_eq h.ptrmems hp

end Same

section Fields

variable {en en' : CfgEntry} {dm dm' : DynMemEntry} {pm pm' : PtrMemEntry}

theorem CfgEntry.shape_fields (h : en'.shape = en.shape) :
    en'.type = en.type ∧ en'.dynval = en.dynval ∧ en'.dynmem = en.dynmem ∧
      en'.ptrmem = en.ptrmem ∧ en'.ptrtgt = en.ptrtgt ∧ en'.vals.dims = en.vals.dims := by
  have h1 := congrArg (·.1) h
  exact ⟨congrArg (·.type) h1, congrArg (·.dynval) h1, congrArg (·.dynmem) h1,
    congrArg (·.ptrmem) h1, congrArg (·.ptrtgt) h1, congrArg (·.2) h⟩

theorem DynMemEntry.shape_fields (h : dm'.shape = dm.shape) :
    dm'.cfgAct = dm.cfgAct ∧ dm'.vMsize = dm.vMsize ∧ dm'.numFreed = dm.numFreed ∧
      dm'.vMaddr.length = dm.vMaddr.length := by
  have h1 := congrArg (·.1) h
  exact ⟨congrArg (·.cfgAct) h1, congrArg (·.vMsize) h1, congrArg (·.numFreed) h1,
    congrArg (·.2) h⟩

theorem PtrMemEntry.shape_fields (h : pm'.shape = pm.shape) :
    pm'.cfg = pm.cfg ∧ pm'.cfgAct = pm.cfgAct ∧ pm'.dynmem = pm.dynmem ∧
      pm'.vState.length = pm.vState.length ∧ pm'.vOffs.length = pm.vOffs.length := by
  have h1 := congrArg (·.1) h
  exact ⟨congrArg (·.cfg) h1, congrArg (·.cfgAct) h1, congrArg (·.dynmem) h1,
    congrArg (·.2.1) h, congrArg (·.2.2) h⟩

end Fields

/-! ## Places -/

/-- Where a value is processed, and for which slot: a static one, one of a class for the object `i`,
or one of a pointer section. -/
inductive ValPlace (cfgAct : List Nat) (opt : Options) : Nat → Option Nat → Prop
  | static {e : Nat} {en : CfgEntry} : e ∈ cfgAct → opt.entries[e]? = some en → en.dynmem = none →
      en.ptrtgt = none → ValPlace cfgAct opt e none
  | obj {e d i : Nat} {en : CfgEntry} {dm : DynMemEntry} : opt.dynmems[d]? = some dm →
      e ∈ dm.cfgAct → i < dm.vMaddr.length → opt.entries[e]? = some en → en.ptrtgt = none →
      ValPlace cfgAct opt e (some i)
  | target {e p i : Nat} {pm : PtrMemEntry} {dm : DynMemEntry} : opt.ptrmems[p]? = some pm →
      e ∈ pm.cfgAct → opt.dynmem? pm.dynmem = some dm → i < dm.vMaddr.length →
      ValPlace cfgAct opt e (some i)
  | staticTarget {e p : Nat} {pm : PtrMemEntry} : opt.ptrmems[p]? = some pm →
      e ∈ pm.cfgAct → opt.dynmem? pm.dynmem = none → ValPlace cfgAct opt e none

/-- Where a pointer is processed, and for which object. -/
inductive PtrPlace (cfgAct : List Nat) (opt : Options) : Nat → Nat → Prop
  | static {e : Nat} {en : CfgEntry} : e ∈ cfgAct → opt.entries[e]? = some en → en.dynmem = none →
      en.ptrtgt.isSome → PtrPlace cfgAct opt e 0
  | obj {e d i : Nat} {en : CfgEntry} {dm : DynMemEntry} : opt.dynmems[d]? = some dm →
      e ∈ dm.cfgAct → i < dm.vMaddr.length → opt.entries[e]? = some en → en.ptrtgt.isSome →
      PtrPlace cfgAct opt e i

/-- The events that a cycle may leave. -/
def Allowed (cfgAct : List Nat) (opt : Options) : ProcEvent → Prop
  | .read e slot _ => ValPlace cfgAct opt e slot
  | .store e slot _ => ValPlace cfgAct opt e slot
  | .pointer e i _ _ => PtrPlace cfgAct opt e i
  | .follow e i _ => PtrPlace cfgAct opt e i

theorem Options.Same.dynmem? {opt opt' : Options} (h : opt.Same opt') (d : Option Nat) :
    (opt'.dynmem? d).map DynMemEntry.shape = (opt.dynmem? d).map DynMemEntry.shape := by
  cases d with
  | none => rfl
  | some d =>
    have := congrArg (·[d]?) h.dynmems
    simpa only [List.getElem?_map, Options.dynmem?, Option.bind_some] using this

/-! ## Elementary changes -/

/-- What reading a value makes of the values of its entry. -/
structure CfgEntry.Reads (en : CfgEntry) (slot : Option Nat) (buf : Value) (v v' : EntryVals) :
    Prop where
  dims : v'.dims = v.dims
  valSet : v'.valSet = false
  others : ∀ slot', slot' ≠ slot → v'.old? slot' = v.old? slot' ∧ v'.wish? slot' = v.wish? slot' ∧
    v'.cstr? slot' = v.cstr? slot'
  wish : ∀ t, en.type.num = some t → ∃ value, v.wish? slot = some value ∧
    (en.dynval = .max → v'.wish? slot =
      some (if t.lt value buf then t.store value buf else value)) ∧
    (en.dynval = .min → v'.wish? slot =
      some (if t.lt buf value then t.store value buf else value))

inductive Prim (C : ProcEvent → Prop) (s : ProcState) : ProcState → Prop
  | mem (caches : Caches) (target : Target) (buf : Value) :
      Prim C s { s with opt := { s.opt with caches := caches }, target := target, buf := buf }
  | objIdx {d i : Nat} {dm : DynMemEntry} : s.opt.dynmems[d]? = some dm → i < dm.vMaddr.length →
      Prim C s (s.modifyDynmem d fun dm => { dm with objIdx := i })
  | kick (d : Nat) : Prim C s (s.modifyDynmem d fun dm => dm.kickObj dm.objIdx)
  | read {e : Nat} {en : CfgEntry} {slot : Option Nat} {v' : EntryVals} (f : EntryVals → EntryVals) :
      s.opt.entries[e]? = some en → f en.vals = v' → en.Reads slot s.buf en.vals v' →
      C (.read e slot s.buf) → Prim C s ((s.modifyVals e f).emit (.read e slot s.buf))
  | store {e : Nat} {en : CfgEntry} {slot : Option Nat} {value : Value} :
      s.opt.entries[e]? = some en → en.dynval ≠ .watch → C (.store e slot value) →
      Prim C s ((s.modifyVals e (·.setFlag true)).emit (.store e slot value))
  /-- A pointer that is null, done, or the same as before. -/
  | pointer {e p memIdx : Nat} {en : CfgEntry} {pm : PtrMemEntry} {slot : Option Nat}
      {value : Value} :
      s.opt.entries[e]? = some en → en.ptrtgt = some p → s.opt.ptrmems[p]? = some pm →
      slot = (s.opt.dynmem? pm.dynmem).map (fun _ => memIdx) →
      (en.vals.old? slot).getD 0 = value →
      s.buf = 0 ∨ pm.vState[memIdx]? = some .done ∨ s.buf = value →
      C (.pointer e memIdx s.buf value) → Prim C s (s.emit (.pointer e memIdx s.buf value))
  /-- A pointer that has changed. -/
  | move {e p memIdx : Nat} {en : CfgEntry} {pm : PtrMemEntry} {slot : Option Nat}
      {value : Value} :
      s.opt.entries[e]? = some en → en.ptrtgt = some p → s.opt.ptrmems[p]? = some pm →
      slot = (s.opt.dynmem? pm.dynmem).map (fun _ => memIdx) →
      en.vals.old? slot = some value → s.buf ≠ 0 →
      (∃ state, pm.vState[memIdx]? = some state ∧ state ≠ .done) → s.buf ≠ value →
      C (.pointer e memIdx s.buf value) →
      Prim C s ((s.emit (.pointer e memIdx s.buf value)).modifyVals e (·.setOld slot s.buf))
  /-- A pointer that is followed. -/
  | settle {e p memIdx : Nat} {en : CfgEntry} {pm : PtrMemEntry} :
      s.opt.entries[e]? = some en → en.ptrtgt = some p → s.opt.ptrmems[p]? = some pm →
      s.buf ≠ 0 → (∃ state, pm.vState[memIdx]? = some state ∧ state ≠ .done) →
      ProcEvent.pointer e memIdx s.buf s.buf ∈ s.events → C (.follow e memIdx s.buf) →
      Prim C s ((s.modifyPtrmem p fun pm => { pm with
        vState := pm.vState.set memIdx (if en.dynval = .ptrOnce then .done else .settled)
        vOffs := pm.vOffs.set memIdx s.buf }).emit (.follow e memIdx s.buf))

/-- A sequence of elementary changes. -/
abbrev Steps (C : ProcEvent → Prop) : ProcState → ProcState → Prop := Relation.ReflTransGen (Prim C)

/-! ## Slots -/

section Slots

variable {v : EntryVals} {slot slot' : Option Nat} {x y : Value} {text : List UInt8}

theorem old?_setOld_ne (h : slot' ≠ slot) : (v.setOld slot x).old? slot' = v.old? slot' := by
  cases slot <;> cases slot' <;> simp_all [EntryVals.old?, EntryVals.setOld, eq_comm]

theorem wish?_setWish (h : v.wish? slot = some y) : (v.setWish slot x).wish? slot = some x := by
  cases slot with
  | none => rfl
  | some i =>
    obtain ⟨hi, -⟩ := List.getElem?_eq_some_iff.mp h
    simp [EntryVals.wish?, EntryVals.setWish, hi]

theorem wish?_setWish_ne (h : slot' ≠ slot) : (v.setWish slot x).wish? slot' = v.wish? slot' := by
  cases slot <;> cases slot' <;> simp_all [EntryVals.wish?, EntryVals.setWish, eq_comm]

theorem cstr?_setCstr_ne (h : slot' ≠ slot) :
    (v.setCstr slot text).cstr? slot' = v.cstr? slot' := by
  cases slot <;> cases slot' <;> simp_all [EntryVals.cstr?, EntryVals.setCstr, eq_comm]

@[simp] theorem wish?_setOld : (v.setOld slot x).wish? slot' = v.wish? slot' := by
  cases slot <;> cases slot' <;> rfl

@[simp] theorem cstr?_setOld : (v.setOld slot x).cstr? slot' = v.cstr? slot' := by
  cases slot <;> cases slot' <;> rfl

@[simp] theorem old?_setWish : (v.setWish slot x).old? slot' = v.old? slot' := by
  cases slot <;> cases slot' <;> rfl

@[simp] theorem cstr?_setWish : (v.setWish slot x).cstr? slot' = v.cstr? slot' := by
  cases slot <;> cases slot' <;> rfl

@[simp] theorem old?_setCstr : (v.setCstr slot text).old? slot' = v.old? slot' := by
  cases slot <;> cases slot' <;> rfl

@[simp] theorem wish?_setCstr : (v.setCstr slot text).wish? slot' = v.wish? slot' := by
  cases slot <;> cases slot' <;> rfl

@[simp] theorem dims_setOld : (v.setOld slot x).dims = v.dims := by
  cases slot <;> simp [EntryVals.dims, EntryVals.setOld]

@[simp] theorem dims_setWish : (v.setWish slot x).dims = v.dims := by
  cases slot <;> simp [EntryVals.dims, EntryVals.setWish]

@[simp] theorem dims_setCstr : (v.setCstr slot text).dims = v.dims := by
  cases slot <;> simp [EntryVals.dims, EntryVals.setCstr]

@[simp] theorem valSet_setOld : (v.setOld slot x).valSet = v.valSet := by cases slot <;> rfl

@[simp] theorem valSet_setWish : (v.setWish slot x).valSet = v.valSet := by cases slot <;> rfl

@[simp] theorem valSet_setCstr : (v.setCstr slot text).valSet = v.valSet := by cases slot <;> rfl

@[simp] theorem old?_setFlag {b : Bool} : (v.setFlag b).old? slot = v.old? slot := by
  cases slot <;> rfl

@[simp] theorem wish?_setFlag {b : Bool} : (v.setFlag b).wish? slot = v.wish? slot := by
  cases slot <;> rfl

@[simp] theorem cstr?_setFlag {b : Bool} : (v.setFlag b).cstr? slot = v.cstr? slot := by
  cases slot <;> rfl

@[simp] theorem dims_setFlag {b : Bool} : (v.setFlag b).dims = v.dims := rfl

@[simp] theorem valSet_setFlag {b : Bool} : (v.setFlag b).valSet = b := rfl

end Slots

/-! ## What an elementary change keeps -/

section Keeps

variable {C : ProcEvent → Prop} {s s' : ProcState} {e d p : Nat}

theorem same_modifyVals {f : EntryVals → EntryVals}
    (hf : ∀ en, s.opt.entries[e]? = some en → (f en.vals).dims = en.vals.dims) :
    s.opt.Same (s.modifyVals e f).opt :=
  ⟨Pointwise.map_modify_of fun en he => by simp [CfgEntry.shape, hf en he], rfl, rfl, rfl, rfl⟩

theorem same_modifyDynmem {f : DynMemEntry → DynMemEntry} (hf : ∀ dm, (f dm).shape = dm.shape) :
    s.opt.Same (s.modifyDynmem d f).opt :=
  ⟨rfl, Pointwise.map_modify_of fun dm _ => hf dm, rfl, rfl, rfl⟩

theorem same_modifyPtrmem {f : PtrMemEntry → PtrMemEntry} (hf : ∀ pm, (f pm).shape = pm.shape) :
    s.opt.Same (s.modifyPtrmem p f).opt :=
  ⟨rfl, rfl, Pointwise.map_modify_of fun pm _ => hf pm, rfl, rfl⟩

theorem shape_kickObj (dm : DynMemEntry) (i : Nat) : (dm.kickObj i).shape = dm.shape := by
  simp [DynMemEntry.shape, DynMemEntry.kickObj]

/-- The config stays the same but for the values. -/
theorem Prim.same (h : Prim C s s') : s.opt.Same s'.opt := by
  cases h with
  | mem => exact ⟨rfl, rfl, rfl, rfl, rfl⟩
  | objIdx => exact same_modifyDynmem fun dm => rfl
  | kick d => exact same_modifyDynmem fun dm => shape_kickObj dm _
  | read f he hf hr hC =>
    refine same_modifyVals fun en' he' => ?_
    cases he.symm.trans he'
    rw [hf, hr.dims]
  | @store e en slot value he hd hC =>
    show s.opt.Same (s.modifyVals e (·.setFlag true)).opt
    exact same_modifyVals fun _ _ => rfl
  | pointer => exact .refl _
  | move => exact same_modifyVals fun _ _ => dims_setOld
  | settle => exact same_modifyPtrmem fun pm => by simp [PtrMemEntry.shape]

/-- At most one event is added. -/
theorem Prim.events (h : Prim C s s') :
    s'.events = s.events ∨ ∃ ev, C ev ∧ s'.events = s.events ++ [ev] := by
  cases h with
  | mem | objIdx | kick => exact .inl rfl
  | read f he hf hr hC => exact .inr ⟨_, hC, rfl⟩
  | store he hd hC => exact .inr ⟨_, hC, rfl⟩
  | pointer he ht hp hsl hv hb hC => exact .inr ⟨_, hC, rfl⟩
  | move he ht hp hsl hv h0 hst hne hC => exact .inr ⟨_, hC, rfl⟩
  | settle he ht hp h0 hst hev hC => exact .inr ⟨_, hC, rfl⟩

theorem Prim.mono {C' : ProcEvent → Prop} (hC : ∀ ev, C ev → C' ev) (h : Prim C s s') :
    Prim C' s s' := by
  cases h with
  | mem caches target buf => exact .mem caches target buf
  | objIdx hd hi => exact .objIdx hd hi
  | kick d => exact .kick d
  | read f he hf hr hc => exact .read f he hf hr (hC _ hc)
  | store he hd hc => exact .store he hd (hC _ hc)
  | pointer he ht hp hsl hv hb hc => exact .pointer he ht hp hsl hv hb (hC _ hc)
  | move he ht hp hsl hv h0 hst hne hc => exact .move he ht hp hsl hv h0 hst hne (hC _ hc)
  | settle he ht hp h0 hst hev hc => exact .settle he ht hp h0 hst hev (hC _ hc)

theorem Steps.same (h : Steps C s s') : s.opt.Same s'.opt := by
  induction h with
  | refl => exact .refl _
  | tail _ hp ih => exact ih.trans hp.same

theorem Steps.mono {C' : ProcEvent → Prop} (hC : ∀ ev, C ev → C' ev) (h : Steps C s s') :
    Steps C' s s' :=
  Relation.ReflTransGen.mono (fun _ _ => Prim.mono hC) _ _ h

/-- The new events. -/
theorem Steps.events (h : Steps C s s') :
    ∃ evs, s'.events = s.events ++ evs ∧ ∀ ev ∈ evs, C ev := by
  induction h with
  | refl => exact ⟨[], by simp, by simp⟩
  | tail _ hp ih =>
    obtain ⟨evs, he, hC⟩ := ih
    rcases hp.events with h0 | ⟨ev, hev, h1⟩
    · exact ⟨evs, h0.trans he, hC⟩
    · refine ⟨evs ++ [ev], by rw [h1, he, List.append_assoc], fun ev' hm => ?_⟩
      rcases List.mem_append.mp hm with hm | hm
      · exact hC ev' hm
      · exact List.mem_singleton.mp hm ▸ hev

end Keeps

/-! ## The functions take steps -/

section Functions

variable {chunk : Nat} {C : ProcEvent → Prop} {s s' : ProcState}

def ProcState.withCaches (s : ProcState) (caches : Caches) : ProcState :=
  { s with opt := { s.opt with caches := caches } }

theorem withCaches_self : s.withCaches s.opt.caches = s := rfl

theorem fillCacheAndBuf_spec {type : VType} {cache : Option CacheRef} {cacheData memOffs : Ptr}
    {buf : Value} {b : Option Value}
    (h : fillCacheAndBuf chunk type cache cacheData memOffs buf s = .ok (b, s')) :
    ∃ caches, s' = s.withCaches caches := by
  unfold fillCacheAndBuf at h
  split at h
  · cases h
    exact ⟨_, withCaches_self.symm⟩
  · split at h
    · cases h
    · rename_i r c hr
      split at h
      · split at h
        · cases h
          exact ⟨_, withCaches_self.symm⟩
        · obtain ⟨b', -, h⟩ := Run.bind_eq_ok.mp h
          cases h
          exact ⟨_, rfl⟩
      · obtain ⟨b', -, h⟩ := Run.bind_eq_ok.mp h
        cases h
        exact ⟨_, withCaches_self.symm⟩

theorem checkValue_spec {dynmem : Option DynMemEntry} {memOffs : Ptr} {chk : CheckEntry}
    {chkBuf : Value} {b : Option Value}
    (h : checkValue chunk dynmem memOffs chk chkBuf s = .ok (b, s')) :
    ∃ caches, s' = s.withCaches caches := by
  unfold checkValue at h
  split at h
  · obtain ⟨b', -, h⟩ := Run.bind_eq_ok.mp h
    cases h
    exact ⟨_, withCaches_self.symm⟩
  · split at h
    · cases h
      exact ⟨_, withCaches_self.symm⟩
    · exact fillCacheAndBuf_spec h

/-- Checks read memory; one that fails may kick the object. -/
theorem processChecks_spec {dynmem : Option Nat} {memOffs : Ptr} {chks : List CheckEntry}
    {chkBuf : Value} {b : Bool}
    (h : processChecks chunk dynmem memOffs chks chkBuf s = .ok (b, s')) :
    ∃ caches, s' = s.withCaches caches ∨
      (b = false ∧ ∃ d, s' = (s.withCaches caches).modifyDynmem d fun dm => dm.kickObj dm.objIdx) := by
  induction chks generalizing chkBuf s with
  | nil =>
    cases h
    exact ⟨_, .inl withCaches_self.symm⟩
  | cons chk chks ih =>
    unfold processChecks at h
    split at h
    · cases h
      exact ⟨_, .inl withCaches_self.symm⟩
    · split at h
      · exact ih h
      · obtain ⟨⟨v, s₁⟩, hv, h⟩ := Run.bind_eq_ok.mp h
        obtain ⟨caches, rfl⟩ := checkValue_spec hv
        cases v with
        | none =>
          cases h
          exact ⟨caches, .inl rfl⟩
        | some chkBuf =>
          obtain ⟨passed, -, h⟩ := Run.bind_eq_ok.mp h
          split at h
          · obtain ⟨caches', h'⟩ := ih h
            exact ⟨caches', h'⟩
          · split at h
            · split at h
              · split at h
                · cases h
                  exact ⟨caches, .inr ⟨rfl, _, rfl⟩⟩
                · cases h
              · cases h
                exact ⟨caches, .inl rfl⟩
            · cases h
              exact ⟨caches, .inl rfl⟩

/-- The entry `e` is `en` but for its values. -/
def ProcState.Is (s : ProcState) (e : Nat) (en : CfgEntry) : Prop :=
  ∃ en', s.opt.entries[e]? = some en' ∧ en'.shape = en.shape

theorem ProcState.Is.of_same {e : Nat} {en : CfgEntry} (h : s.Is e en) (hs : s.opt.Same s'.opt) :
    s'.Is e en := by
  obtain ⟨en', he, hen⟩ := h
  obtain ⟨en'', he', hen'⟩ := hs.entry he
  exact ⟨en'', he', hen'.trans hen⟩

theorem steps_caches (caches : Caches) : Steps C s (s.withCaches caches) :=
  .single (.mem caches s.target s.buf)

theorem passChecks_spec {en : CfgEntry} {memOffs : Ptr} {b : Bool}
    (h : passChecks chunk en memOffs s = .ok (b, s')) :
    ∃ caches, s' = s.withCaches caches ∨
      (b = false ∧ ∃ d, s' = (s.withCaches caches).modifyDynmem d fun dm => dm.kickObj dm.objIdx) := by
  unfold passChecks at h
  split at h
  · cases h
    exact ⟨_, .inl withCaches_self.symm⟩
  · exact processChecks_spec h

theorem passChecks_steps {en : CfgEntry} {memOffs : Ptr} {b : Bool}
    (h : passChecks chunk en memOffs s = .ok (b, s')) : Steps C s s' := by
  rcases passChecks_spec h with ⟨caches, rfl | ⟨-, d, rfl⟩⟩
  · exact steps_caches caches
  · exact (steps_caches caches).tail (.kick d)

theorem storeVal_steps {t : NumType} {e : Nat} {en : CfgEntry} {value : Value}
    {slot : Option Nat} (hen : s.Is e en) (hw : en.dynval ≠ .watch) (hC : C (.store e slot value))
    (h : storeVal t e en value slot s = .ok s') : Steps C s s' := by
  obtain ⟨en', he, hs⟩ := hen
  unfold storeVal at h
  split at h
  · cases h
  · rename_i r c hr
    dsimp only at h
    split at h
    · cases h
    · cases h
      refine (steps_caches _).tail (Prim.store he ?_ hC)
      rw [(CfgEntry.shape_fields hs).2.1]
      exact hw

theorem changeMemVal_steps {t : NumType} {e : Nat} {en : CfgEntry} {readVal value : Value}
    {memOffs : Ptr} {slot : Option Nat} (hen : s.Is e en) (hC : ∀ v, C (.store e slot v))
    (h : changeMemVal chunk t e en readVal value memOffs slot s = .ok s') : Steps C s s' := by
  unfold changeMemVal at h
  split at h
  · cases h
    exact .refl
  · rename_i hw
    obtain ⟨⟨passed, s₁⟩, hchk, h⟩ := Run.bind_eq_ok.mp h
    have h₁ : Steps C s s₁ := passChecks_steps hchk
    refine h₁.trans ?_
    dsimp only at h
    split at h
    · cases h
      exact .refl
    · split at h
      · cases h
        exact .refl
      · split at h
        · cases h
          exact .refl
        · exact storeVal_steps (hen.of_same h₁.same) hw (hC value) h

/-- What `handle_dynval` does to the values, and the new wish value of a limit. -/
theorem handleDynval_spec {t : NumType} {e : Nat} {en : CfgEntry} {readVal value value' : Value}
    {cstr : Option (List UInt8)} {memOffs : Ptr} {slot : Option Nat}
    (h : handleDynval t e en readVal value cstr memOffs slot s = .ok (value', s')) :
    (s' = s ∨ ∃ text, s' = s.modifyVals e (·.setCstr slot text)) ∧
    (en.dynval = .max → value' = if t.lt value readVal then t.store value readVal else value) ∧
    (en.dynval = .min → value' = if t.lt readVal value then t.store value readVal else value) := by
  have hread : ∀ addr text, readCstr e slot addr text s = s ∨
      ∃ text', readCstr e slot addr text s = s.modifyVals e (·.setCstr slot text') := by
    intro addr text
    unfold readCstr
    split
    · exact .inl rfl
    · exact .inr ⟨_, rfl⟩
  unfold handleDynval at h
  split at h <;> rename_i hd
  · cases h
    simp [hd]
  · cases h
    simp [hd]
  · simp only [hd, reduceCtorEq, false_implies, and_true]
    split at h
    · obtain ⟨r, -, h⟩ := Run.bind_eq_ok.mp h
      split at h <;> cases h <;> exact .inl rfl
    · split at h <;> cases h <;> exact .inl rfl
  · simp only [hd, reduceCtorEq, false_implies, and_true]
    split at h
    · cases h
      exact .inl rfl
    · split at h
      · split at h <;> cases h
        · exact .inl rfl
        · exact hread _ _
      · split at h <;> cases h
        · exact hread _ _
        · exact .inl rfl
  · cases h
    refine ⟨.inl rfl, fun hm => ?_, fun hm => ?_⟩ <;> simp_all

theorem emit_modifyVals {e : Nat} {f : EntryVals → EntryVals} {ev : ProcEvent} :
    (s.emit ev).modifyVals e f = (s.modifyVals e f).emit ev := rfl

theorem modifyVals_modifyVals {e : Nat} {f g : EntryVals → EntryVals} :
    (s.modifyVals e f).modifyVals e g = s.modifyVals e (g ∘ f) := by
  simp only [ProcState.modifyVals, List.modify_modify_eq]
  rfl

theorem entry_modifyVals {e : Nat} {f : EntryVals → EntryVals} {en : CfgEntry}
    (he : s.opt.entries[e]? = some en) :
    (s.modifyVals e f).opt.entries[e]? = some { en with vals := f en.vals } := by
  simp [ProcState.modifyVals, he]

/-- The values after reading: the flag, the old value, perhaps the text, and the wish value. -/
theorem reads_of_steps {en : CfgEntry} {slot : Option Nat} {buf oldVal value value' : Value}
    {t : NumType} {g : EntryVals → EntryVals} (ht : en.type.num = some t)
    (hwish : en.vals.wish? slot = some value) (hg : g = id ∨ ∃ text, g = (·.setCstr slot text))
    (hmax : en.dynval = .max → value' =
      if t.lt value (t.store oldVal buf) then t.store value (t.store oldVal buf) else value)
    (hmin : en.dynval = .min → value' =
      if t.lt (t.store oldVal buf) value then t.store value (t.store oldVal buf) else value) :
    en.Reads slot buf en.vals
      ((g ((en.vals.setFlag false).setOld slot (t.store oldVal buf))).setWish slot value') := by
  have hw := num_width_le ht
  have hgw : (g ((en.vals.setFlag false).setOld slot (t.store oldVal buf))).wish? slot =
      some value := by
    rcases hg with rfl | ⟨text, rfl⟩ <;> simp [hwish]
  refine ⟨?_, ?_, fun slot' hne => ?_, fun t' ht' => ⟨value, hwish, fun hm => ?_, fun hm => ?_⟩⟩
  · rcases hg with rfl | ⟨text, rfl⟩ <;> simp
  · rcases hg with rfl | ⟨text, rfl⟩ <;> simp
  · rw [old?_setWish, wish?_setWish_ne hne, cstr?_setWish]
    rcases hg with rfl | ⟨text, rfl⟩
    · simp [old?_setOld_ne hne]
    · simp [old?_setOld_ne hne, cstr?_setCstr_ne hne]
  · obtain rfl : t = t' := by rw [ht] at ht'; exact Option.some.inj ht'
    rw [wish?_setWish hgw, hmax hm, NumType.lt_store_right hw, NumType.store_store hw]
  · obtain rfl : t = t' := by rw [ht] at ht'; exact Option.some.inj ht'
    rw [wish?_setWish hgw, hmin hm, NumType.lt_store_left hw, NumType.store_store hw]

/-- The value is read once, then it may be stored. -/
theorem changeMemory_read {e : Nat} {en : CfgEntry} {memOffs : Ptr} {slot : Option Nat}
    (hen : s.Is e en) (h : changeMemory chunk e en memOffs slot s = .ok s') :
    ∃ s₁, Prim (fun ev => ∃ b, ev = .read e slot b) s s₁ ∧
      Steps (fun ev => ∃ v, ev = .store e slot v) s₁ s' := by
  obtain ⟨en', he, hs⟩ := hen
  obtain ⟨htype, hdyn, -⟩ := CfgEntry.shape_fields hs
  unfold changeMemory at h
  have he₁ := entry_modifyVals (f := (·.setFlag false)) he
  have hopt : ((s.modifyVals e (·.setFlag false)).emit (.read e slot s.buf)).opt =
      (s.modifyVals e (·.setFlag false)).opt := rfl
  simp only [hopt, he₁, Option.bind_some, old?_setFlag, wish?_setFlag, cstr?_setFlag] at h
  split at h
  · rename_i oldVal value cstr hold hwish hcstr
    split at h
    · cases h
      rename_i hnum
      refine ⟨_, .read (·.setFlag false) he rfl ⟨rfl, rfl, fun _ _ => by simp, ?_⟩ ⟨_, rfl⟩, .refl⟩
      intro t ht
      rw [htype, hnum] at ht
      cases ht
    · rename_i t hnum
      obtain ⟨⟨value', s₂⟩, hdv, h⟩ := Run.bind_eq_ok.mp h
      obtain ⟨hs₂, hmax, hmin⟩ := handleDynval_spec hdv
      rw [← hdyn] at hmax hmin
      have hg : ∃ g, (g = id ∨ ∃ text, g = (·.setCstr slot text)) ∧
          s₂.modifyVals e (·.setWish slot value') = (s.modifyVals e fun v =>
            (g ((v.setFlag false).setOld slot (t.store oldVal s.buf))).setWish slot value').emit
              (.read e slot s.buf) := by
        rcases hs₂ with rfl | ⟨text, rfl⟩
        · exact ⟨id, .inl rfl, by
            simp only [← emit_modifyVals, modifyVals_modifyVals]; rfl⟩
        · exact ⟨_, .inr ⟨text, rfl⟩, by
            simp only [← emit_modifyVals, modifyVals_modifyVals]; rfl⟩
      obtain ⟨g, hgc, hgs⟩ := hg
      have h₁ : Prim (fun ev => ∃ b, ev = .read e slot b) s
          (s₂.modifyVals e (·.setWish slot value')) := by
        rw [hgs]
        exact .read _ he rfl (reads_of_steps (htype ▸ hnum) hwish hgc hmax hmin) ⟨_, rfl⟩
      refine ⟨_, h₁, changeMemVal_steps ?_ (fun v => ⟨v, rfl⟩) h⟩
      exact ProcState.Is.of_same ⟨en', he, hs⟩ h₁.same
  · cases h

theorem changeMemory_steps {e : Nat} {en : CfgEntry} {memOffs : Ptr} {slot : Option Nat}
    (hen : s.Is e en) (hr : ∀ b, C (.read e slot b)) (hC : ∀ v, C (.store e slot v))
    (h : changeMemory chunk e en memOffs slot s = .ok s') : Steps C s s' := by
  obtain ⟨s₁, h₁, h₂⟩ := changeMemory_read hen h
  refine .head (h₁.mono fun ev => ?_) (h₂.mono fun ev => ?_)
  · rintro ⟨b, rfl⟩
    exact hr b
  · rintro ⟨v, rfl⟩
    exact hC v

theorem foldlM_steps {ι : Type} {f : ProcState → ι → Except Fault ProcState} {l : List ι}
    (hf : ∀ s s' i, i ∈ l → f s i = .ok s' → Steps C s s') (h : l.foldlM f s = .ok s') :
    Steps C s s' := by
  induction l generalizing s with
  | nil =>
    cases h
    exact .refl
  | cons i l ih =>
    obtain ⟨s₁, h₁, h⟩ := Run.bind_eq_ok.mp h
    exact (hf s s₁ i List.mem_cons_self h₁).trans
      (ih (fun s s' j hj => hf s s' j (List.mem_cons_of_mem i hj)) h)

/-- The same where the config at the start matters. -/
theorem foldlM_steps_of_same {ι : Type} {opt : Options} {f : ProcState → ι → Except Fault ProcState}
    {l : List ι}
    (hf : ∀ s s' i, i ∈ l → opt.Same s.opt → f s i = .ok s' → Steps C s s')
    (hs : opt.Same s.opt) (h : l.foldlM f s = .ok s') : Steps C s s' := by
  induction l generalizing s with
  | nil =>
    cases h
    exact .refl
  | cons i l ih =>
    obtain ⟨s₁, h₁, h⟩ := Run.bind_eq_ok.mp h
    have hstep := hf s s₁ i List.mem_cons_self hs h₁
    exact hstep.trans
      (ih (fun s s' j hj => hf s s' j (List.mem_cons_of_mem i hj)) (hs.trans hstep.same) h)

theorem steps_invalidate (mem : MemType) : Steps C s (s.invalidateCaches mem) :=
  steps_caches _

theorem steps_write (mem : MemType) : Steps C s (s.writeCaches mem) :=
  .single (.mem _ _ s.buf)

theorem steps_setBuf (buf : Value) : Steps C s (s.setBuf buf) :=
  .single (.mem s.opt.caches s.target buf)

theorem processTarget_steps {memIdx e : Nat} {slot : Option Nat}
    (hC : ∀ b, C (.read e slot b) ∧ C (.store e slot b))
    (h : processTarget chunk memIdx slot s e = .ok s') : Steps C s s' := by
  unfold processTarget at h
  split at h
  · cases h
  · rename_i en he
    split at h
    · cases h
    · cases h
    · rename_i memOffs hoffs
      obtain ⟨⟨buf, s₁⟩, hfill, h⟩ := Run.bind_eq_ok.mp h
      obtain ⟨caches, rfl⟩ := fillCacheAndBuf_spec hfill
      refine (steps_caches caches).trans ?_
      cases buf with
      | none =>
        cases h
        exact .refl
      | some buf =>
        refine (steps_setBuf buf).trans (changeMemory_steps ⟨en, he, rfl⟩ ?_ ?_ h)
        · exact fun b => (hC b).1
        · exact fun b => (hC b).2

/-- The slot of the entries of a pointer section. -/
def Options.targetSlot (opt : Options) (pm : PtrMemEntry) (memIdx : Nat) : Option Nat :=
  (opt.dynmem? pm.dynmem).map fun _ => memIdx

theorem pointerSlot_spec {opt : Options} {pm : PtrMemEntry} {memIdx : Nat} {slot : Option Nat}
    {memOffs : Ptr} (h : pointerSlot opt pm.dynmem memIdx = .ok (slot, memOffs)) :
    slot = opt.targetSlot pm memIdx ∧
      ∀ dm, opt.dynmem? pm.dynmem = some dm → memIdx < dm.vMaddr.length := by
  unfold pointerSlot at h
  split at h <;> rename_i hd
  · cases h
    simp [Options.targetSlot, hd]
  · split at h
    · cases h
    · rename_i dm a ha
      cases h
      simp only [Options.targetSlot, hd, Option.map_some, Option.some.injEq, forall_eq', true_and]
      exact (List.getElem?_eq_some_iff.mp ha).1

/-- The events that may be left where a pointer is followed. -/
structure TargetEvents (C : ProcEvent → Prop) (opt : Options) (e memIdx : Nat) (en : CfgEntry) :
    Prop where
  follow : ∀ b, C (.follow e memIdx b)
  target : ∀ p pm e', en.ptrtgt = some p → opt.ptrmems[p]? = some pm → e' ∈ pm.cfgAct →
    (∀ dm, opt.dynmem? pm.dynmem = some dm → memIdx < dm.vMaddr.length) → ∀ b,
    C (.read e' (opt.targetSlot pm memIdx) b) ∧ C (.store e' (opt.targetSlot pm memIdx) b)

/-- The events that may be left where a pointer is processed. -/
structure PtrEvents (C : ProcEvent → Prop) (opt : Options) (e memIdx : Nat) (en : CfgEntry) : Prop
    extends TargetEvents C opt e memIdx en where
  pointer : ∀ b v, C (.pointer e memIdx b v)

theorem followPtr_steps {en en' : CfgEntry} {e p memIdx : Nat} {pm : PtrMemEntry}
    {slot : Option Nat} (he : s.opt.entries[e]? = some en') (hen : en'.shape = en.shape)
    (ht : en.ptrtgt = some p) (hp : s.opt.ptrmems[p]? = some pm) (h0 : s.buf ≠ 0)
    (hst : ∃ state, pm.vState[memIdx]? = some state ∧ state ≠ .done)
    (hev : ProcEvent.pointer e memIdx s.buf s.buf ∈ s.events) (hf : C (.follow e memIdx s.buf))
    (hC : ∀ e' ∈ pm.cfgAct, ∀ b, C (.read e' slot b) ∧ C (.store e' slot b))
    (h : followPtr chunk en e p pm memIdx slot s = .ok s') : Steps C s s' := by
  obtain ⟨-, hdyn, -, -, htgt, -⟩ := CfgEntry.shape_fields hen
  unfold followPtr at h
  obtain ⟨s₁, h₁, h⟩ := Run.bind_eq_ok.mp h
  cases h
  refine .trans ?_ (steps_write (.ptrmem p))
  refine .trans ?_ (foldlM_steps (fun s s' e' he' => processTarget_steps (hC e' he')) h₁)
  refine .trans ?_ (steps_invalidate (.ptrmem p))
  rw [← hdyn]
  exact .single (.settle he (htgt.trans ht) hp h0 hst hev hf)

/-- The pointer is read once, then it may be followed. -/
theorem processPtrmem_pointer {e memIdx : Nat} {en : CfgEntry} (hen : s.Is e en)
    (hC : TargetEvents C s.opt e memIdx en) (h : processPtrmem chunk e en memIdx s = .ok s') :
    ∃ s₁, (s₁ = s ∨ Prim (fun ev => ∃ b v, ev = .pointer e memIdx b v) s s₁) ∧
      Steps C s₁ s' := by
  obtain ⟨en', he, hs⟩ := hen
  obtain ⟨-, -, -, -, htgt, -⟩ := CfgEntry.shape_fields hs
  unfold processPtrmem at h
  split at h
  · cases h
  · rename_i p ptrtgt hp
    obtain ⟨p', hp', hpm⟩ := Option.bind_eq_some_iff.mp hp
    obtain ⟨pm, hpm, hpp⟩ := Option.map_eq_some_iff.mp hpm
    cases hpp
    obtain ⟨⟨slot, memOffs⟩, hsl, h⟩ := Run.bind_eq_ok.mp h
    obtain ⟨rfl, hlt⟩ := pointerSlot_spec hsl
    dsimp only at h
    split at h
    · cases h
      exact ⟨_, .inl rfl, .refl⟩
    · simp only [he, Option.bind_some] at h
      have hpt := htgt.trans hp'
      split at h
      · rename_i h0
        cases h
        exact ⟨_, .inr (.pointer he hpt hpm rfl rfl (.inl h0) ⟨_, _, rfl⟩), .refl⟩
      · rename_i h0
        split at h
        · cases h
        · rename_i hst
          cases h
          exact ⟨_, .inr (.pointer he hpt hpm rfl rfl (.inr (.inl hst)) ⟨_, _, rfl⟩), .refl⟩
        · rename_i state hne hst
          have hst' : ∃ state, ptrtgt.vState[memIdx]? = some state ∧ state ≠ .done :=
            ⟨state, hst, fun hd => hne hd⟩
          split at h
          · cases h
          · rename_i value hval
            have hval' : en'.vals.old? (s.opt.targetSlot ptrtgt memIdx) = some value := by
              simpa [ProcState.emit, he] using hval
            rw [hval', Option.getD_some] at h
            split at h
            · rename_i hb
              have hb' : s.buf = value := hb
              obtain ⟨⟨passed, s₂⟩, hchk, h⟩ := Run.bind_eq_ok.mp h
              refine ⟨_, .inr (.pointer he hpt hpm rfl ?_ (.inr (.inr hb')) ⟨_, _, rfl⟩), ?_⟩
              · rw [← Options.targetSlot, hval', Option.getD_some]
              refine (passChecks_steps hchk).trans ?_
              dsimp only at h
              split at h
              · cases h
                exact .refl
              · rename_i hpassed
                rcases passChecks_spec hchk with ⟨caches, rfl | ⟨hfalse, -⟩⟩
                · refine followPtr_steps he hs hp' hpm h0 hst' ?_ (hC.follow _) ?_ h
                  · simp [ProcState.withCaches, ProcState.emit, hb']
                  · exact fun e' he' => hC.target p ptrtgt e' hp' hpm he' hlt
                · exact absurd hfalse hpassed
            · rename_i hb
              cases h
              refine ⟨_, .inr (.move he hpt hpm rfl ?_ h0 hst' hb ⟨_, _, rfl⟩), .refl⟩
              exact hval'

theorem processPtrmem_steps {e memIdx : Nat} {en : CfgEntry} (hen : s.Is e en)
    (hC : PtrEvents C s.opt e memIdx en)
    (h : processPtrmem chunk e en memIdx s = .ok s') : Steps C s s' := by
  obtain ⟨s₁, h₁, h₂⟩ := processPtrmem_pointer hen hC.toTargetEvents h
  rcases h₁ with rfl | h₁
  · exact h₂
  · refine .head (h₁.mono fun ev => ?_) h₂
    rintro ⟨b, v, rfl⟩
    exact hC.pointer b v

/-- The events of a value or a pointer that is processed. -/
structure ValEvents (C : ProcEvent → Prop) (opt : Options) (e memIdx : Nat) (slot : Option Nat)
    (en : CfgEntry) : Prop where
  value : en.ptrtgt = none → ∀ b, C (.read e slot b) ∧ C (.store e slot b)
  pointer : en.ptrtgt.isSome → PtrEvents C opt e memIdx en

theorem processValue_steps {e memIdx : Nat} {en : CfgEntry} {memOffs : Ptr} {slot : Option Nat}
    (hen : s.Is e en) (hC : ValEvents C s.opt e memIdx slot en)
    (h : processValue chunk e en memOffs memIdx slot s = .ok s') : Steps C s s' := by
  unfold processValue at h
  split at h
  · rename_i ht
    exact processPtrmem_steps hen (hC.pointer ht) h
  · rename_i ht
    have ht' : en.ptrtgt = none := by simpa using ht
    exact changeMemory_steps hen (fun b => (hC.value ht' b).1) (fun b => (hC.value ht' b).2) h

variable {cfgAct : List Nat}

theorem targetSlot_of_same {opt opt' : Options} {pm pm' : PtrMemEntry} (h : opt.Same opt')
    (hp : pm'.shape = pm.shape) (memIdx : Nat) :
    opt'.targetSlot pm' memIdx = opt.targetSlot pm memIdx := by
  have hdm := h.dynmem? pm.dynmem
  unfold Options.targetSlot
  rw [(PtrMemEntry.shape_fields hp).2.2.1]
  cases h₁ : opt.dynmem? pm.dynmem <;> cases h₂ : opt'.dynmem? pm.dynmem <;>
    simp [h₁, h₂] at hdm ⊢

theorem ValEvents.of_same {opt opt' : Options} {e memIdx : Nat} {slot : Option Nat}
    {en en' : CfgEntry} (h : opt.Same opt') (hs : en'.shape = en.shape)
    (hv : ValEvents C opt e memIdx slot en) : ValEvents C opt' e memIdx slot en' := by
  obtain ⟨-, -, -, -, htgt, -⟩ := CfgEntry.shape_fields hs
  refine ⟨fun ht => hv.value (htgt ▸ ht), fun ht => ?_⟩
  have hptr := hv.pointer (htgt ▸ ht)
  refine ⟨⟨hptr.follow, fun p pm' e' hp hpm' he' hlt b => ?_⟩, hptr.pointer⟩
  obtain ⟨pm, hpm, hps⟩ := h.symm.ptrmem hpm'
  obtain ⟨-, hact, hdyn, -, -⟩ := PtrMemEntry.shape_fields hps
  rw [targetSlot_of_same h hps.symm]
  refine hptr.target p pm e' (htgt ▸ hp) hpm (hact ▸ he') (fun dm hdm => ?_) b
  have hdm' := h.dynmem? pm.dynmem
  rw [hdm, Option.map_some] at hdm'
  obtain ⟨dm', hdm', hds⟩ := Option.map_eq_some_iff.mp hdm'
  exact (DynMemEntry.shape_fields hds).2.2.2 ▸ hlt dm' (hdyn ▸ hdm')

/-- The events that may be left by the activated entries, each at its place. -/
structure CycleEvents (C : ProcEvent → Prop) (cfgAct : List Nat) (opt : Options) : Prop where
  static : ∀ (e : Nat) (en : CfgEntry), e ∈ cfgAct → opt.entries[e]? = some en →
    en.dynmem = none → ValEvents C opt e 0 none en
  obj : ∀ (d e i : Nat) (dm : DynMemEntry) (en : CfgEntry), opt.dynmems[d]? = some dm →
    e ∈ dm.cfgAct → i < dm.vMaddr.length → opt.entries[e]? = some en →
    ValEvents C opt e i (some i) en

theorem CycleEvents.of_same {opt opt' : Options} (h : opt.Same opt')
    (hC : CycleEvents C cfgAct opt) : CycleEvents C cfgAct opt' := by
  refine ⟨fun e en' hm he' hd => ?_, fun d e i dm' en' hd' hm hi he' => ?_⟩
  · obtain ⟨en, he, hs⟩ := h.symm.entry he'
    have hdyn := (CfgEntry.shape_fields hs).2.2.1
    exact (hC.static e en hm he (hdyn.trans hd)).of_same h hs.symm
  · obtain ⟨en, he, hs⟩ := h.symm.entry he'
    obtain ⟨dm, hd, hds⟩ := h.symm.dynmem hd'
    obtain ⟨hact, -, -, hlen⟩ := DynMemEntry.shape_fields hds
    exact (hC.obj d e i dm en hd (hact ▸ hm) (hlen ▸ hi) he).of_same h hs.symm

theorem ptrEvents_allowed {opt : Options} {e memIdx : Nat} {en : CfgEntry}
    (hp : PtrPlace cfgAct opt e memIdx) : PtrEvents (Allowed cfgAct opt) opt e memIdx en := by
  refine ⟨⟨fun _ => hp, fun p pm e' ht hpm he' hlt b => ?_⟩, fun _ _ => hp⟩
  have hv : ValPlace cfgAct opt e' (opt.targetSlot pm memIdx) := by
    unfold Options.targetSlot
    cases hd : opt.dynmem? pm.dynmem with
    | none => exact .staticTarget hpm he' hd
    | some dm => exact .target hpm he' hd (hlt dm hd)
  exact ⟨hv, hv⟩

theorem cycleEvents_allowed (cfgAct : List Nat) (opt : Options) :
    CycleEvents (Allowed cfgAct opt) cfgAct opt := by
  refine ⟨fun e en hm he hd => ⟨fun ht _ => ?_, fun ht => ?_⟩,
    fun d e i dm en hd hm hi he => ⟨fun ht _ => ?_, fun ht => ?_⟩⟩
  · exact ⟨.static hm he hd ht, .static hm he hd ht⟩
  · exact ptrEvents_allowed (.static hm he hd ht)
  · exact ⟨.obj hd hm hi he ht, .obj hd hm hi he ht⟩
  · exact ptrEvents_allowed (.obj hd hm hi he ht)

/-- An entry of a class is skipped for an object, or its value is processed. -/
theorem processObjEntry_cases {d memIdx e : Nat} {dm : DynMemEntry}
    (hd : s.opt.dynmems[d]? = some dm) (h : processObjEntry chunk d memIdx s e = .ok s') :
    Steps C s s' ∨ ∃ en memOffs s₁, Steps C s s₁ ∧ s.opt.entries[e]? = some en ∧
      memIdx < dm.vMaddr.length ∧
      processValue chunk e en memOffs memIdx (some memIdx) s₁ = .ok s' := by
  unfold processObjEntry at h
  split at h
  · rename_i dm' en hd' he
    rw [hd] at hd'
    cases hd'
    split at h
    · cases h
    · rename_i memOffs hoffs
      have hi := (List.getElem?_eq_some_iff.mp hoffs).1
      split at h
      · cases h
        exact .inl .refl
      · split at h
        · cases h
        · split at h
          · cases h
            exact .inl .refl
          · obtain ⟨⟨buf, s₁⟩, hfill, h⟩ := Run.bind_eq_ok.mp h
            obtain ⟨caches, rfl⟩ := fillCacheAndBuf_spec hfill
            have h₁ : Steps C s
                ((s.modifyDynmem d fun dm => { dm with objIdx := memIdx }).withCaches caches) :=
              (Relation.ReflTransGen.single (.objIdx hd hi)).trans (steps_caches caches)
            cases buf with
            | none =>
              cases h
              exact .inl h₁
            | some buf => exact .inr ⟨en, memOffs, _, h₁.trans (steps_setBuf buf), he, hi, h⟩
  · cases h

/-- An entry of a class leaves events of its own. -/
theorem processObjEntry_steps {d memIdx e : Nat} {dm : DynMemEntry}
    (hC : CycleEvents C cfgAct s.opt) (hd : s.opt.dynmems[d]? = some dm) (hm : e ∈ dm.cfgAct)
    (h : processObjEntry chunk d memIdx s e = .ok s') : Steps C s s' := by
  rcases processObjEntry_cases hd h with h | ⟨en, memOffs, s₁, h₁, he, hi, h⟩
  · exact h
  · obtain ⟨en₁, he₁, hs⟩ := h₁.same.entry he
    have hv := (hC.obj d e memIdx dm en hd hm hi he).of_same h₁.same rfl
    exact h₁.trans (processValue_steps ⟨en₁, he₁, hs⟩ hv h)

theorem processObj_steps {d memIdx : Nat} {dm : DynMemEntry} (hC : CycleEvents C cfgAct s.opt)
    (hd : s.opt.dynmems[d]? = some dm) (h : processObj chunk d dm.cfgAct s memIdx = .ok s') :
    Steps C s s' := by
  unfold processObj at h
  obtain ⟨s₁, h₁, h⟩ := Run.bind_eq_ok.mp h
  cases h
  refine .trans ?_ (steps_write (.dynmem d))
  refine (steps_invalidate (.dynmem d)).trans ?_
  refine foldlM_steps_of_same (fun s₂ s₃ e he hs h => ?_)
    (steps_invalidate (C := C) (.dynmem d)).same h₁
  obtain ⟨dm', hd', hsh⟩ := hs.dynmem hd
  have he' : e ∈ dm'.cfgAct := (DynMemEntry.shape_fields hsh).1 ▸ he
  exact processObjEntry_steps (hC.of_same hs) hd' he' h

theorem processDynmemCfgAct_steps {d : Nat} (hC : CycleEvents C cfgAct s.opt)
    (h : processDynmemCfgAct chunk d s = .ok s') : Steps C s s' := by
  unfold processDynmemCfgAct at h
  split at h
  · cases h
  · rename_i dm hd
    obtain ⟨s₁, h₁, h⟩ := Run.bind_eq_ok.mp h
    cases h
    refine .trans ?_ (steps_setBuf s.buf)
    refine (steps_setBuf 0).trans ?_
    refine foldlM_steps_of_same (fun s₂ s₃ i _ hs h => ?_) (steps_setBuf (C := C) 0).same h₁
    obtain ⟨dm', hd', hsh⟩ := hs.dynmem hd
    rw [← (DynMemEntry.shape_fields hsh).1] at h
    exact processObj_steps (hC.of_same hs) hd' h

/-- An entry outside of classes is skipped, or its value is processed. -/
theorem processStaticEntry_cases {e : Nat} {en : CfgEntry}
    (h : processStaticEntry chunk e en s = .ok s') :
    Steps C s s' ∨ ∃ s₁, Steps C s s₁ ∧ processValue chunk e en 0 0 none s₁ = .ok s' := by
  unfold processStaticEntry at h
  split at h
  · cases h
    exact .inl .refl
  · obtain ⟨⟨buf, s₁⟩, hfill, h⟩ := Run.bind_eq_ok.mp h
    obtain ⟨caches, rfl⟩ := fillCacheAndBuf_spec hfill
    cases buf with
    | none =>
      cases h
      exact .inl (steps_caches caches)
    | some buf => exact .inr ⟨_, (steps_caches caches).trans (steps_setBuf buf), h⟩

theorem processStaticEntry_steps {e : Nat} {en : CfgEntry} (hC : CycleEvents C cfgAct s.opt)
    (he : s.opt.entries[e]? = some en) (hm : e ∈ cfgAct) (hd : en.dynmem = none)
    (h : processStaticEntry chunk e en s = .ok s') : Steps C s s' := by
  rcases processStaticEntry_cases h with h | ⟨s₁, h₁, h⟩
  · exact h
  · obtain ⟨en₁, he₁, hs⟩ := h₁.same.entry he
    have hv := (hC.static e en hm he hd).of_same h₁.same rfl
    exact h₁.trans (processValue_steps ⟨en₁, he₁, hs⟩ hv h)

theorem processEntries_steps {old : Option Nat} {es : List Nat} (hC : CycleEvents C cfgAct s.opt)
    (hm : ∀ e ∈ es, e ∈ cfgAct) (h : processEntries chunk old es s = .ok s') : Steps C s s' := by
  induction es generalizing s old with
  | nil =>
    cases h
    exact .refl
  | cons e es ih =>
    have hm' : ∀ e' ∈ es, e' ∈ cfgAct := fun e' he' => hm e' (List.mem_cons_of_mem e he')
    unfold processEntries at h
    split at h
    · cases h
    · rename_i en he
      split at h
      · split at h
        · exact ih hC hm' h
        · obtain ⟨s₁, h₁, h⟩ := Run.bind_eq_ok.mp h
          have hsteps : Steps C s s₁ := processDynmemCfgAct_steps hC h₁
          exact hsteps.trans (ih (hC.of_same hsteps.same) hm' h)
      · rename_i hd
        obtain ⟨s₁, h₁, h⟩ := Run.bind_eq_ok.mp h
        have hsteps : Steps C s s₁ :=
          processStaticEntry_steps hC he (hm e List.mem_cons_self) hd h₁
        exact hsteps.trans (ih (hC.of_same hsteps.same) hm' h)

theorem foldl_steps {f : ProcState → MemType → ProcState} (hf : ∀ s mem, Steps C s (f s mem))
    (mems : List MemType) (s : ProcState) : Steps C s (mems.foldl f s) := by
  induction mems generalizing s with
  | nil => exact .refl
  | cons mem mems ih => exact (hf s mem).trans (ih (f s mem))

/-- **A cycle is a sequence of elementary changes**, whose events are those of activated entries. -/
theorem processActCfg_stepsOf (hC : CycleEvents C cfgAct s.opt)
    (h : processActCfg chunk cfgAct s = .ok s') : Steps C s s' := by
  unfold processActCfg at h
  obtain ⟨s₁, h₁, h⟩ := Run.bind_eq_ok.mp h
  cases h
  refine .trans ?_ (foldl_steps (fun s mem => steps_write mem) _ _)
  have h₀ : Steps C s
      (s.opt.cycleCaches.foldl (fun s mem => s.invalidateCaches mem) (s.setBuf 0)) :=
    (steps_setBuf 0).trans (foldl_steps (fun s mem => steps_invalidate mem) _ _)
  exact h₀.trans (processEntries_steps (hC.of_same h₀.same) (fun e he => he) h₁)

theorem processActCfg_steps (h : processActCfg chunk cfgAct s = .ok s') :
    Steps (Allowed cfgAct s.opt) s s' :=
  processActCfg_stepsOf (cycleEvents_allowed cfgAct s.opt) h

end Functions

end UgTrain
