import UgTrain.RefIndex

/-!
# The flag that a reference looks at

A reference gives the wish value if the flag of the entry is set, and the value that was read
otherwise. The flag is as old as the last time that the entry was processed: for another object, or
in another cycle where the entry is switched off, out of the bounds of the object or not readable
now. `run_refs_fresh_iff` says when it is the one of the object and of the cycle.
-/

namespace UgTrain

open CLib

/-- The slot that a reference to the entry looks at. -/
def Options.refSlot (opt : Options) (en : CfgEntry) : Option Nat :=
  match opt.dynmem? en.dynmem with
  | some dynmem => some dynmem.objIdx
  | none =>
    ((en.ptrmem.bind (opt.ptrmems[·]?)).bind fun ptrmem => opt.dynmem? ptrmem.dynmem).map (·.objIdx)

/-- The wish value was stored for the slot, and the entry was not processed since. -/
def Written (e : Nat) (slot : Option Nat) (evs : List ProcEvent) : Prop :=
  ∃ value, lastOf e evs = some (.store e slot value)

/-- **The flag of a reference is fresh**: it is set exactly if the entry was written for the object of
the reference in this cycle; then the wish value is given, and the value from memory otherwise. -/
def ProcState.FreshRef (s : ProcState) (cfgRef : Nat) : Prop :=
  ∀ en, s.opt.entries[cfgRef]? = some en →
    (en.vals.valSet = true ↔ Written cfgRef (s.opt.refSlot en) s.events) ∧
    ∀ v, handleCfgRef s.opt cfgRef = .ok (some v) →
      (Written cfgRef (s.opt.refSlot en) s.events → en.vals.wish? (s.opt.refSlot en) = some v) ∧
      (¬ Written cfgRef (s.opt.refSlot en) s.events → en.vals.old? (s.opt.refSlot en) = some v)

/-- The wish value was stored when the entry was last processed: in the cycle, or else before it. Then
the flag at the start of the cycle says so, which only the processing of the entry changes. -/
def ProcState.WrittenLast (start : ProcState) (e : Nat) (evs : List ProcEvent) : Prop :=
  match lastOf e evs with
  | some ev => ev.isStore = true
  | none => start.valSet? e = some true

/-- The entry was last processed in the cycle and for the object of the reference, or it was not
written when it was last processed. -/
def ProcState.RefProcessed (start s : ProcState) (cfgRef : Nat) : Prop :=
  ∀ en, s.opt.entries[cfgRef]? = some en →
    (∃ ev, lastOf cfgRef s.events = some ev ∧ ev.about = some (cfgRef, s.opt.refSlot en)) ∨
      ¬ start.WrittenLast cfgRef s.events

section Fresh

variable {s s' : ProcState} {cfgRef : Nat} {en : CfgEntry} {v : Value}

theorem refVal_eq {vals : EntryVals} {objIdx : Nat} (h : vals.refVal objIdx = .ok (some v)) :
    (if vals.valSet then vals.wish? (some objIdx) else vals.old? (some objIdx)) = some v := by
  have hvec : (if vals.valSet then vals.vValue else vals.vOldval)[objIdx]? = some v := by
    unfold EntryVals.refVal at h
    generalize (if vals.valSet then vals.vValue else vals.vOldval) = vvec at h ⊢
    dsimp only at h
    split at h
    · cases h
    · split at h
      · rename_i heq
        cases h
        exact heq
      · cases h
  cases hb : vals.valSet <;> rw [hb] at hvec <;> exact hvec

theorem staticRef_eq {opt : Options} (h : handleCfgRef.staticRef opt en = some v) :
    (if en.vals.valSet then en.vals.wish? none else en.vals.old? none) = some v := by
  unfold handleCfgRef.staticRef at h
  split at h
  · cases h
  · cases hb : en.vals.valSet <;> rw [hb] at h <;> exact h

/-- The value of a reference is the one of its slot that the flag selects. -/
theorem handleCfgRef_value (he : s.opt.entries[cfgRef]? = some en)
    (h : handleCfgRef s.opt cfgRef = .ok (some v)) :
    (if en.vals.valSet then en.vals.wish? (s.opt.refSlot en) else en.vals.old? (s.opt.refSlot en)) =
      some v := by
  unfold handleCfgRef at h
  rw [he] at h
  dsimp only at h
  cases hd : s.opt.dynmem? en.dynmem with
  | some dynmem =>
    rw [hd] at h
    have hslot : s.opt.refSlot en = some dynmem.objIdx := by rw [Options.refSlot, hd]
    rw [hslot]
    exact refVal_eq h
  | none =>
    rw [hd] at h
    cases hp : en.ptrmem.bind (s.opt.ptrmems[·]?) with
    | none =>
      rw [hp] at h
      have hslot : s.opt.refSlot en = none := by rw [Options.refSlot, hd, hp]; rfl
      rw [hslot]
      exact staticRef_eq (Except.ok.inj h)
    | some ptrmem =>
      rw [hp] at h
      dsimp only at h
      cases hown : s.opt.dynmem? ptrmem.dynmem with
      | none =>
        rw [hown] at h
        have hslot : s.opt.refSlot en = none := by
          rw [Options.refSlot, hd, hp, Option.bind_some, hown]
          rfl
        rw [hslot]
        exact staticRef_eq (Except.ok.inj h)
      | some dynmem =>
        rw [hown] at h
        have hslot : s.opt.refSlot en = some dynmem.objIdx := by
          rw [Options.refSlot, hd, hp, Option.bind_some, hown]
          rfl
        rw [hslot]
        have hval : en.vals.refVal dynmem.objIdx = .ok (some v) := by
          dsimp only at h
          generalize (if en.vals.valSet then en.vals.vValue else en.vals.vOldval) = vvec at h
          split at h
          · cases h
          · split at h
            · cases h
            · cases h
            · exact h
        exact refVal_eq hval

/-- At a look-up behind the start of a cycle. -/
theorem freshRef_iff (h : s.Flags s') (h0 : s.events = []) :
    s'.FreshRef cfgRef ↔ s.RefProcessed s' cfgRef := by
  obtain ⟨evs, he, hf⟩ := h
  obtain rfl : s'.events = evs := by rw [he, h0, List.nil_append]
  refine forall₂_congr fun en hen => ?_
  -- the value part follows from the flag
  have hvalue : (en.vals.valSet = true ↔ Written cfgRef (s'.opt.refSlot en) s'.events) →
      ∀ v, handleCfgRef s'.opt cfgRef = .ok (some v) →
        (Written cfgRef (s'.opt.refSlot en) s'.events →
          en.vals.wish? (s'.opt.refSlot en) = some v) ∧
        (¬ Written cfgRef (s'.opt.refSlot en) s'.events →
          en.vals.old? (s'.opt.refSlot en) = some v) := by
    intro hiff v hv
    have heq := handleCfgRef_value hen hv
    refine ⟨fun hw => ?_, fun hw => ?_⟩
    · rwa [if_pos (hiff.mpr hw)] at heq
    · rwa [if_neg (mt hiff.mp hw)] at heq
  rw [and_iff_left_of_imp hvalue]
  have hflag : (s.valSet? cfgRef).map (flagAfter cfgRef · s'.events) = some en.vals.valSet := by
    rw [← hf cfgRef, ProcState.valSet?, hen]
    rfl
  obtain ⟨b, hb, hflag⟩ := Option.map_eq_some_iff.mp hflag
  unfold Written ProcState.WrittenLast
  rw [← hflag, hb]
  unfold flagAfter
  cases hlast : lastOf cfgRef s'.events with
  | none => simp
  | some ev =>
    have hof := lastOf_isOf hlast
    cases ev with
    | read e slot buf => simp [ProcEvent.isStore]
    | pointer => cases hof
    | follow => cases hof
    | store e slot value =>
      obtain rfl : e = cfgRef := by simpa [ProcEvent.isOf, ProcEvent.about] using hof
      simp [ProcEvent.isStore, ProcEvent.about]

end Fresh

/-! ## Cycles -/

/-- Every look-up of the cycle finds a fresh flag. -/
def CycleFresh (chunk : Nat) (cfgAct : List Nat) (s : ProcState) : Prop :=
  CycleLooks chunk (fun _ _ s' cfgRef => s'.FreshRef cfgRef) cfgAct s

def CycleProcessed (chunk : Nat) (cfgAct : List Nat) (s : ProcState) : Prop :=
  CycleLooks chunk (fun _ _ s' cfgRef => s.RefProcessed s' cfgRef) cfgAct s

section Cycles

variable {chunk : Nat} {cfgAct : List Nat} {s s' : ProcState}

/-- What holds at the look-ups of a cycle, from what has happened since its start. -/
theorem cycleLooks_congr {R R' : ProcState → Nat → Prop}
    (h : ∀ s' cfgRef, s.Goes s' → (R s' cfgRef ↔ R' s' cfgRef)) :
    CycleLooks chunk (fun _ _ => R) cfgAct s ↔ CycleLooks chunk (fun _ _ => R') cfgAct s := by
  refine forall_congr' fun pre => forall_congr' fun v => forall_congr' fun post =>
    forall_congr' fun s₁ => forall₂_congr fun _ hrun => ?_
  have hgoes : s.Goes s₁ := (cycleStart_steps (C := fun _ => True)).goes.trans (visits_goes hrun)
  exact ⟨visitLooks_mono fun s' cfgRef hm _ => (h s' cfgRef (hgoes.trans hm)).mp,
    visitLooks_mono fun s' cfgRef hm _ => (h s' cfgRef (hgoes.trans hm)).mpr⟩

/-- **The look-ups of a cycle.** -/
theorem cycle_fresh_iff (h0 : s.events = []) :
    CycleFresh chunk cfgAct s ↔ CycleProcessed chunk cfgAct s :=
  cycleLooks_congr fun _ _ hgoes => freshRef_iff hgoes.flags h0

end Cycles

/-! ## An entry that is switched off -/

/-- A static value that is always set to 9. -/
def CfgEntry.always : CfgEntry := { (default : CfgEntry) with
  addr := 0x1000
  type := { (default : VType) with size := 8 }
  check := .off
  cache := some ⟨.opt, 0⟩
  vals := { (default : EntryVals) with value := 9 } }

/-- A static value that is set to a value of the first entry. -/
def CfgEntry.reference : CfgEntry := { (default : CfgEntry) with
  addr := 0x1000
  type := { (default : VType) with size := 8 }
  dynval := .addr
  cfgRef := some 0
  cache := some ⟨.opt, 0⟩ }

/-- This value, and a reference to it. -/
def CfgMem.wishAndRef : CfgMem where
  entries := [.always, .reference]
  dynmems := []
  ptrmems := []

/-- The main loop at its start; the key `a` is for the value. -/
def Trainer.startWish : Trainer :=
  let s := Trainer.startKey .wishAndRef [0, 1] 97
  { s with opt := { s.opt with
    caches := Function.update s.opt.caches .opt [⟨0x1000, ptrMax, List.replicate 8 0, false⟩] } }

/-- A cycle, then the value is switched off. -/
def LoopInput.switchOff (mem : Ptr → UInt8) : List LoopInput :=
  List.replicate 11 (.idle mem) ++ (pressed mem 97).take 5

end UgTrain
