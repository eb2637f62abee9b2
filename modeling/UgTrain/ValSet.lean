import UgTrain.Freeze

/-!
# The flag of a value (`val_set`)

An entry has one flag for all of its objects. Reading the value for an object clears it and storing
the wish value sets it, so that it tells what happened when the entry was last processed
(`Steps.flags`), and not for which object or in which cycle that was.

* `lastOf e evs`: the last event of the entry `e`.
* `flagAfter e b evs`: its flag behind the events, if it was `b` before.
-/

namespace UgTrain

open CLib

/-- The entry whose value was read or stored, and the slot. -/
def ProcEvent.about : ProcEvent → Option (Nat × Option Nat)
  | .read e slot _ => some (e, slot)
  | .store e slot _ => some (e, slot)
  | .pointer .. | .follow .. => none

def ProcEvent.isStore : ProcEvent → Bool
  | .store .. => true
  | _ => false

def ProcEvent.isOf (e : Nat) (ev : ProcEvent) : Bool := ev.about.any (·.1 = e)

/-- The last event of an entry. -/
def lastOf (e : Nat) (evs : List ProcEvent) : Option ProcEvent := (evs.filter (·.isOf e)).getLast?

/-- The flag of an entry after these events. -/
def flagAfter (e : Nat) (b : Bool) (evs : List ProcEvent) : Bool :=
  ((lastOf e evs).map (·.isStore)).getD b

section Flag

variable {e : Nat} {b : Bool} {ev : ProcEvent} {evs evs' : List ProcEvent}

theorem lastOf_append : lastOf e (evs ++ evs') = (lastOf e evs').or (lastOf e evs) := by
  rw [lastOf, List.filter_append, List.getLast?_append]
  rfl

theorem flagAfter_append : flagAfter e b (evs ++ evs') = flagAfter e (flagAfter e b evs) evs' := by
  unfold flagAfter
  rw [lastOf_append]
  cases lastOf e evs' <;> rfl

theorem lastOf_isOf (h : lastOf e evs = some ev) : ev.isOf e = true := by
  have hm := List.mem_of_getLast? h
  exact (List.mem_filter.mp hm).2

@[simp] theorem flagAfter_nil : flagAfter e b [] = b := rfl

theorem flagAfter_single : flagAfter e b [ev] = if ev.isOf e then ev.isStore else b := by
  unfold flagAfter lastOf
  rw [List.filter_singleton]
  cases ev.isOf e <;> rfl

end Flag

/-- The events are added, and every flag is the one after them. -/
def ProcState.Flags (s s' : ProcState) : Prop :=
  ∃ evs, s'.events = s.events ++ evs ∧
    ∀ e, s'.valSet? e = (s.valSet? e).map fun b => flagAfter e b evs

section Flags

variable {C : ProcEvent → Prop} {s s' s'' : ProcState} {e : Nat}

theorem ProcState.Flags.trans (h : s.Flags s') (h' : s'.Flags s'') : s.Flags s'' := by
  obtain ⟨evs, he, hf⟩ := h
  obtain ⟨evs', he', hf'⟩ := h'
  refine ⟨evs ++ evs', by rw [he', he, List.append_assoc], fun r => ?_⟩
  rw [hf', hf, Option.map_map]
  refine congrArg (Option.map · _) (funext fun b => ?_)
  exact flagAfter_append.symm

/-- The flags and the events stay. -/
theorem flags_of_eq (he : s'.events = s.events) (hf : ∀ e, s'.valSet? e = s.valSet? e) :
    s.Flags s' := by
  refine ⟨[], by rw [he, List.append_nil], fun r => ?_⟩
  rw [hf]
  exact Option.map_id'.symm

theorem ProcState.Flags.refl (s : ProcState) : s.Flags s := flags_of_eq rfl fun _ => rfl

/-- The values of other entries stay. -/
theorem valSet?_modifyVals_ne {f : EntryVals → EntryVals} {r : Nat} (hr : r ≠ e) :
    (s.modifyVals e f).valSet? r = s.valSet? r := by
  simp only [ProcState.valSet?, ProcState.modifyVals, List.getElem?_modify, if_neg (Ne.symm hr)]
  cases s.opt.entries[r]? <;> rfl

/-- A change of the values that leaves the flag. -/
theorem flags_modifyVals {f : EntryVals → EntryVals}
    (hf : ∀ en, s.opt.entries[e]? = some en → (f en.vals).valSet = en.vals.valSet) :
    s.Flags (s.modifyVals e f) := by
  refine flags_of_eq rfl fun r => ?_
  by_cases hr : r = e
  · subst hr
    rw [valSet?_modifyVals, ProcState.valSet?]
    exact Option.map_congr fun en he => hf en he
  · exact valSet?_modifyVals_ne hr

/-- An event with the value that it gives the flag. -/
theorem flags_event {f : EntryVals → EntryVals} {ev : ProcEvent} {slot : Option Nat}
    (hev : ev.about = some (e, slot))
    (hf : ∀ en, s.opt.entries[e]? = some en → (f en.vals).valSet = ev.isStore) :
    s.Flags ((s.modifyVals e f).emit ev) := by
  refine ⟨[ev], rfl, fun r => ?_⟩
  rw [valSet?_emit]
  simp only [flagAfter_single, ProcEvent.isOf, hev, Option.any_some, decide_eq_true_eq]
  by_cases hr : r = e
  · subst hr
    rw [valSet?_modifyVals, ProcState.valSet?, Option.map_map]
    refine Option.map_congr fun en he => ?_
    simp [hf en he]
  · rw [valSet?_modifyVals_ne hr]
    simp [Ne.symm hr]

/-- An event that is not about a value. -/
theorem flags_emit {ev : ProcEvent} (hev : ev.about = none) : s.Flags (s.emit ev) := by
  refine ⟨[ev], rfl, fun r => ?_⟩
  rw [valSet?_emit]
  simp [flagAfter_single, ProcEvent.isOf, hev]

theorem Prim.flags (h : Prim C s s') : s.Flags s' := by
  cases h with
  | mem | objIdx | kick => exact flags_of_eq rfl fun _ => rfl
  | read f he hf hr hC =>
    refine flags_event rfl fun en he' => ?_
    cases he.symm.trans he'
    rw [hf, hr.valSet]
    rfl
  | store he hd hC => exact flags_event rfl fun _ _ => rfl
  | pointer => exact flags_emit rfl
  | move =>
    refine (flags_emit rfl).trans (flags_modifyVals fun en _ => ?_)
    exact valSet_setOld
  | settle => exact (flags_of_eq rfl fun _ => rfl).trans (flags_emit rfl)

/-- **The flag of an entry** is set exactly if the wish value was stored when the entry was last
processed. -/
theorem Steps.flags (h : Steps C s s') : s.Flags s' := by
  induction h with
  | refl => exact .refl _
  | tail _ hp ih => exact ih.trans hp.flags

end Flags

end UgTrain
