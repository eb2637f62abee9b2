import Mathlib

/-!
# Chains of a partial function

`nth next n a` is what `n` applications of `next` to `a` give. If `next` is defined on the elements of
a list only, a chain that has not ended after as many steps runs into a cycle (`ends_iff`).
-/

namespace Chain

variable {α : Type} {next : α → Option α} {dom : List α} {a b : α} {m n : Nat}

/-- The element of the chain from `a` after `n` steps. -/
def nth (next : α → Option α) : Nat → α → Option α
  | 0, a => some a
  | n + 1, a => (next a).bind (nth next n)

/-- One step. -/
def Leads (next : α → Option α) (a b : α) : Prop := next a = some b

/-- The chain from `a` runs into a cycle. -/
def Cyclic (next : α → Option α) (a : α) : Prop :=
  ∃ b, Relation.ReflTransGen (Leads next) a b ∧ Relation.TransGen (Leads next) b b

theorem nth_add (a : α) : nth next (m + n) a = (nth next m a).bind (nth next n) := by
  induction m generalizing a with
  | zero => rw [Nat.zero_add]; rfl
  | succ m ih =>
    rw [Nat.succ_add, nth, nth, Option.bind_assoc]
    exact congrArg _ (funext ih)

theorem nth_none_of_le (h : nth next m a = none) (hle : m ≤ n) : nth next n a = none := by
  obtain ⟨k, rfl⟩ := Nat.exists_eq_add_of_le hle
  rw [nth_add, h]
  rfl

theorem reflTransGen_iff : Relation.ReflTransGen (Leads next) a b ↔ ∃ n, nth next n a = some b := by
  constructor
  · intro h
    induction h with
    | refl => exact ⟨0, rfl⟩
    | tail _ hstep ih =>
      obtain ⟨n, hn⟩ := ih
      exact ⟨n + 1, by rw [nth_add, hn, Option.bind_some, nth, hstep]; rfl⟩
  · rintro ⟨n, hn⟩
    induction n generalizing a with
    | zero =>
      cases hn
      exact .refl
    | succ n ih =>
      obtain ⟨c, hc, hn⟩ := Option.bind_eq_some_iff.mp hn
      exact .head hc (ih hn)

theorem transGen_iff : Relation.TransGen (Leads next) a b ↔ ∃ n, nth next (n + 1) a = some b := by
  rw [Relation.TransGen.head'_iff]
  simp only [reflTransGen_iff, nth, Option.bind_eq_some_iff]
  constructor
  · rintro ⟨c, hc, n, hn⟩
    exact ⟨n, c, hc, hn⟩
  · rintro ⟨n, c, hc, hn⟩
    exact ⟨c, hc, n, hn⟩

/-- A cycle never ends. -/
theorem nth_ne_none_of_cycle (h : nth next (m + 1) b = some b) (n : Nat) : nth next n b ≠ none := by
  have hround : ∀ k, nth next (k * (m + 1)) b = some b := by
    intro k
    induction k with
    | zero => rw [Nat.zero_mul]; rfl
    | succ k ih => rw [Nat.succ_mul, nth_add, ih, Option.bind_some, h]
  intro hn
  have := nth_none_of_le hn (Nat.le_mul_of_pos_right n (Nat.succ_pos m))
  rw [hround] at this
  cases this

/-- A chain that has not ended after as many steps as there are elements has a cycle. -/
theorem cyclic_of_nth_ne_none (hdom : ∀ a b, next a = some b → a ∈ dom)
    (h : nth next (dom.length + 1) a ≠ none) : Cyclic next a := by
  classical
  have hall : ∀ i ≤ dom.length, ∃ c ∈ dom, nth next i a = some c := by
    intro i hi
    have hsucc : nth next (i + 1) a ≠ none :=
      mt (nth_none_of_le · (Nat.succ_le_succ hi)) h
    obtain ⟨d, hd⟩ := Option.ne_none_iff_exists'.mp hsucc
    rw [nth_add] at hd
    obtain ⟨c, hc, hd⟩ := Option.bind_eq_some_iff.mp hd
    obtain ⟨d', hd', -⟩ := Option.bind_eq_some_iff.mp hd
    exact ⟨c, hdom c d' hd', hc⟩
  have hcard : dom.toFinset.card < (Finset.range (dom.length + 1)).card := by
    rw [Finset.card_range]
    exact Nat.lt_succ_of_le (List.toFinset_card_le dom)
  -- Two of the first elements are the same.
  obtain ⟨i, hi, j, hj, hne, heq⟩ := Finset.exists_ne_map_eq_of_card_lt_of_maps_to hcard
    (f := fun i => (nth next i a).getD a) fun i hi => by
      obtain ⟨c, hc, hn⟩ := hall i (Nat.lt_succ_iff.mp (Finset.mem_range.mp hi))
      simpa [hn] using hc
  wlog hlt : i < j generalizing i j
  · exact this j hj i hi hne.symm heq.symm (by omega)
  obtain ⟨c, -, hc⟩ := hall i (Nat.lt_succ_iff.mp (Finset.mem_range.mp hi))
  obtain ⟨d, -, hd⟩ := hall j (Nat.lt_succ_iff.mp (Finset.mem_range.mp hj))
  obtain rfl : c = d := by simpa [hc, hd] using heq
  refine ⟨c, reflTransGen_iff.mpr ⟨i, hc⟩, transGen_iff.mpr ⟨j - i - 1, ?_⟩⟩
  rw [show j = i + (j - i - 1 + 1) by omega, nth_add, hc] at hd
  exact hd

/-- A chain that runs into a cycle never ends. -/
theorem nth_ne_none_of_cyclic (h : Cyclic next a) (n : Nat) : nth next n a ≠ none := by
  obtain ⟨b, hb, hcycle⟩ := h
  obtain ⟨i, hi⟩ := reflTransGen_iff.mp hb
  obtain ⟨m, hm⟩ := transGen_iff.mp hcycle
  intro hn
  have := nth_none_of_le hn (Nat.le_add_left n i)
  rw [nth_add, hi] at this
  exact nth_ne_none_of_cycle hm _ this

/-- **A chain ends** exactly if it does not run into a cycle, and then soon. -/
theorem ends_iff (hdom : ∀ a b, next a = some b → a ∈ dom) :
    nth next (dom.length + 1) a = none ↔ ¬ Cyclic next a := by
  constructor
  · intro h hcyclic
    exact nth_ne_none_of_cyclic hcyclic _ h
  · intro h
    by_contra hne
    exact h (cyclic_of_nth_ne_none hdom hne)

end Chain
