import Mathlib

/-!
# Write-back caches

Lines hold copies of parts of a memory. A store goes into a line and makes it dirty; dirty lines are
written back later. `Coherent lines mem view`: the lines and the memory together stand for `view`, the
memory as it would be if all stores went there at once.

* `Coherent.fill`: a line is filled from memory, apart from the dirty lines.
* `Coherent.store`: bytes are stored in a line, apart from the other lines.
* `Coherent.writeBack`: dirty lines are written back. They may overlap: they agree.
* `Coherent.close`: clean lines are given up.
-/

namespace WriteBack

/-- The addresses that a line covers, its copy of them, and whether it is to be written back. -/
structure Line (α β : Type*) where
  covers : Set α
  data : α → β
  dirty : Bool

section Coherent

variable {ι α β : Type*} {lines lines' : ι → Line α β} {mem mem' view view' : α → β} {i : ι}
  {l : Line α β}

structure Coherent (lines : ι → Line α β) (mem view : α → β) : Prop where
  data : ∀ i, ∀ a ∈ (lines i).covers, (lines i).data a = view a
  mem : ∀ a, (∀ i, (lines i).dirty = true → a ∉ (lines i).covers) → mem a = view a

theorem Coherent.rfl_of_closed (h : ∀ i, (lines i).covers = ∅) (mem : α → β) :
    Coherent lines mem mem :=
  ⟨fun i a ha => by rw [h i] at ha; exact ha.elim, fun _ _ => rfl⟩

/-- Where no line is dirty, memory is what is seen. -/
theorem Coherent.eq_of_clean (h : Coherent lines mem view)
    (hc : ∀ i, (lines i).dirty = true → (lines i).covers = ∅) : mem = view :=
  funext fun a => h.mem a fun i hi ha => by rw [hc i hi] at ha; exact ha

variable [DecidableEq ι]

/-- **A line is filled** from memory. -/
theorem Coherent.fill (h : Coherent lines mem view) (hold : (lines i).covers = ∅)
    (hdata : ∀ a ∈ l.covers, l.data a = mem a)
    (hapart : ∀ j, j ≠ i → (lines j).dirty = true → Disjoint l.covers (lines j).covers) :
    Coherent (Function.update lines i l) mem view := by
  constructor
  · intro j a ha
    by_cases hj : j = i
    · subst hj
      rw [Function.update_self] at ha ⊢
      rw [hdata a ha]
      refine h.mem a fun k hk hak => ?_
      by_cases hkj : k = j
      · rw [hkj, hold] at hak
        exact hak
      · exact Set.disjoint_left.mp (hapart k hkj hk) ha hak
    · rw [Function.update_of_ne hj] at ha ⊢
      exact h.data j a ha
  · intro a ha
    refine h.mem a fun j hj haj => ?_
    by_cases hji : j = i
    · rw [hji, hold] at haj
      exact haj
    · exact ha j (by rwa [Function.update_of_ne hji]) (by rwa [Function.update_of_ne hji])

/-- **A store** into a line. -/
theorem Coherent.store (h : Coherent lines mem view) {S : Set α} (hS : S ⊆ (lines i).covers)
    (hcovers : l.covers = (lines i).covers) (hdirty : l.dirty = true)
    (hdata : ∀ a ∈ (lines i).covers, a ∉ S → l.data a = (lines i).data a)
    (hnew : ∀ a ∈ S, l.data a = view' a) (hview : ∀ a, a ∉ S → view' a = view a)
    (hapart : ∀ j, j ≠ i → Disjoint S (lines j).covers) :
    Coherent (Function.update lines i l) mem view' := by
  constructor
  · intro j a ha
    by_cases hj : j = i
    · subst hj
      rw [Function.update_self] at ha ⊢
      rw [hcovers] at ha
      by_cases haS : a ∈ S
      · exact hnew a haS
      · rw [hdata a ha haS, h.data j a ha, hview a haS]
    · rw [Function.update_of_ne hj] at ha ⊢
      rw [h.data j a ha, hview a fun haS => Set.disjoint_left.mp (hapart j hj) haS ha]
  · intro a ha
    have hi : a ∉ (lines i).covers := by
      have := ha i (by rwa [Function.update_self])
      rwa [Function.update_self, hcovers] at this
    rw [hview a fun haS => hi (hS haS)]
    refine h.mem a fun j hj haj => ?_
    by_cases hji : j = i
    · exact hi (hji ▸ haj)
    · exact ha j (by rwa [Function.update_of_ne hji]) (by rwa [Function.update_of_ne hji])

omit [DecidableEq ι]

/-- **Dirty lines are written back**, and clean afterwards. -/
theorem Coherent.writeBack (h : Coherent lines mem view)
    (hmem : ∀ a, mem' a = view a ∨ mem' a = mem a)
    (hlines : ∀ i, (lines' i).covers = (lines i).covers ∧ (lines' i).data = (lines i).data)
    (hback : ∀ i, (lines i).dirty = true → (lines' i).dirty = true ∨
      ∀ a ∈ (lines i).covers, mem' a = view a) : Coherent lines' mem' view := by
  constructor
  · intro i a ha
    rw [(hlines i).1] at ha
    rw [(hlines i).2]
    exact h.data i a ha
  · intro a ha
    rcases hmem a with heq | heq
    · exact heq
    · by_cases hcov : ∃ i, (lines i).dirty = true ∧ a ∈ (lines i).covers
      · obtain ⟨i, hi, hai⟩ := hcov
        rcases hback i hi with hd | hd
        · exact absurd ((hlines i).1 ▸ hai) (ha i hd)
        · exact hd a hai
      · rw [heq]
        exact h.mem a fun i hi hai => hcov ⟨i, hi, hai⟩

/-- **Clean lines are given up**, or are none anyway. -/
theorem Coherent.close (h : Coherent lines mem view)
    (hl : ∀ i, lines' i = lines i ∨ (lines' i).covers = ∅ ∧
      ((lines i).dirty = true → (lines i).covers = ∅)) : Coherent lines' mem view := by
  constructor
  · intro i a ha
    rcases hl i with heq | ⟨h0, -⟩
    · rw [heq] at ha ⊢
      exact h.data i a ha
    · rw [h0] at ha
      exact ha.elim
  · intro a ha
    refine h.mem a fun i hi hai => ?_
    rcases hl i with heq | ⟨-, h0⟩
    · exact ha i (heq ▸ hi) (heq ▸ hai)
    · rw [h0 hi] at hai
      exact hai

end Coherent

end WriteBack
