import UgTrain.ProcSteps

/-!
# Visits

What an elementary change of the processing does to one entry (`Prim.entry`) and to one pointer
section (`Prim.ptrmem`).
-/

namespace UgTrain

open CLib

/-! ## One entry and one section -/

/-- The values of all slots are the same. -/
def EntryVals.SameSlots (v v' : EntryVals) : Prop :=
  ∀ slot, v'.old? slot = v.old? slot ∧ v'.wish? slot = v.wish? slot ∧ v'.cstr? slot = v.cstr? slot

/-- The slot of a pointer's old value. -/
def Options.ptrSlot (opt : Options) (en : CfgEntry) (memIdx : Nat) : Option Nat :=
  ((en.ptrtgt.bind (opt.ptrmems[·]?)).bind fun pm => opt.dynmem? pm.dynmem).map fun _ => memIdx

section Prim

variable {C : ProcEvent → Prop} {s s' : ProcState} {e p : Nat}

theorem entry_modifyVals_ne {e' : Nat} {f : EntryVals → EntryVals} (h : e' ≠ e) :
    (s.modifyVals e' f).opt.entries[e]? = s.opt.entries[e]? :=
  List.getElem?_modify_ne _ _ h

/-- What an elementary change does to the values of an entry: nothing but to the flag, unless the
entry is read or is a pointer that has changed. -/
theorem Prim.entry (h : Prim C s s') {en : CfgEntry} (he : s.opt.entries[e]? = some en) :
    ∃ v', s'.opt.entries[e]? = some { en with vals := v' } ∧
      (en.vals.SameSlots v' ∨
        (∃ slot, C (.read e slot s.buf) ∧ s'.events = s.events ++ [.read e slot s.buf] ∧
          en.Reads slot s.buf en.vals v') ∨
        ∃ i value, C (.pointer e i s.buf value) ∧ s.buf ≠ 0 ∧
          en.vals.old? (s.opt.ptrSlot en i) = some value ∧
          s'.events = s.events ++ [.pointer e i s.buf value] ∧
          v' = en.vals.setOld (s.opt.ptrSlot en i) s.buf) := by
  have hsame : ∀ s' : ProcState, s'.opt.entries[e]? = s.opt.entries[e]? →
      ∃ v', s'.opt.entries[e]? = some { en with vals := v' } ∧ en.vals.SameSlots v' :=
    fun s' h => ⟨en.vals, h.trans he, fun _ => ⟨rfl, rfl, rfl⟩⟩
  cases h with
  | mem | objIdx | kick | pointer | settle =>
    obtain ⟨v', he', hv⟩ := hsame _ rfl
    exact ⟨v', he', .inl hv⟩
  | @read e₁ en₁ slot v₁ f he₁ hf hr hC =>
    by_cases hne : e₁ = e
    · subst hne
      cases he.symm.trans he₁
      exact ⟨f en.vals, entry_modifyVals he, .inr (.inl ⟨slot, hC, rfl, hf ▸ hr⟩)⟩
    · obtain ⟨v', he', hv⟩ := hsame (s.modifyVals e₁ f) (entry_modifyVals_ne hne)
      exact ⟨v', he', .inl hv⟩
  | @store e₁ en₁ slot value he₁ hw hC =>
    by_cases hne : e₁ = e
    · subst hne
      exact ⟨en.vals.setFlag true, entry_modifyVals he, .inl fun _ => by simp⟩
    · obtain ⟨v', he', hv⟩ := hsame (s.modifyVals e₁ (·.setFlag true)) (entry_modifyVals_ne hne)
      exact ⟨v', he', .inl hv⟩
  | @move e₁ p i en₁ pm slot value he₁ ht hp hsl hv h0 hst hb hC =>
    by_cases hne : e₁ = e
    · subst hne
      cases he.symm.trans he₁
      obtain rfl : slot = s.opt.ptrSlot en i := by simp [Options.ptrSlot, ht, hp, hsl]
      exact ⟨_, entry_modifyVals he, .inr (.inr ⟨i, value, hC, h0, hv, rfl, rfl⟩)⟩
    · obtain ⟨v', he', hv'⟩ := hsame (s.modifyVals e₁ (·.setOld slot s.buf))
        (entry_modifyVals_ne hne)
      exact ⟨v', he', .inl hv'⟩

/-- A pointer section changes where a pointer to it is followed. -/
theorem Prim.ptrmem (h : Prim C s s') {pm : PtrMemEntry} (hp : s.opt.ptrmems[p]? = some pm) :
    s'.opt.ptrmems[p]? = some pm ∨ ∃ e i en, s.opt.entries[e]? = some en ∧ en.ptrtgt = some p ∧
      C (.follow e i s.buf) ∧ s'.events = s.events ++ [.follow e i s.buf] ∧
      (∃ state, pm.vState[i]? = some state ∧ state ≠ .done) ∧
      s'.opt.ptrmems[p]? = some { pm with
        vState := pm.vState.set i (if en.dynval = .ptrOnce then .done else .settled)
        vOffs := pm.vOffs.set i s.buf } := by
  cases h with
  | mem | objIdx | kick | read | store | pointer | move => exact .inl hp
  | @settle e q i en pm₁ he ht hq h0 hst hev hC =>
    by_cases hne : q = p
    · subst hne
      cases hp.symm.trans hq
      refine .inr ⟨e, i, en, he, ht, hC, rfl, hst, ?_⟩
      simp [ProcState.emit, ProcState.modifyPtrmem, hp]
    · exact .inl ((List.getElem?_modify_ne _ _ hne).trans hp)

end Prim

end UgTrain
