import Mathlib

/-!
# Runs of a step function

`step s i` takes one step from the state `s` on the input `i`, or fails. `run` takes one step after
the other.

* `Always P s is`: no step of the run fails, and `P` holds in every state that is reached.
* `Each C s is`: `C` holds of every state and the input that the run takes there.
* `always_iff_each`: where `C` says of each state with `P` when a step keeps `P`, it says of a whole
  run when the run keeps `P`.
-/

namespace Run

/-- A computation in two parts returns if both do. -/
theorem bind_eq_ok {ε α β : Type} {x : Except ε α} {f : α → Except ε β} {r : β} :
    (x >>= f) = .ok r ↔ ∃ a, x = .ok a ∧ f a = .ok r := by
  cases x with
  | error e => simp [bind, Except.bind]
  | ok a => simp [bind, Except.bind]

@[simp] theorem ok_bind {ε α β : Type} (a : α) (f : α → Except ε β) :
    (Except.ok a >>= f) = f a := rfl

theorem exists_ok_of_isOk {ε α : Type} {x : Except ε α} (h : x.isOk = true) :
    ∃ a, x = .ok a := by
  cases x with
  | error e => cases h
  | ok a => exact ⟨a, rfl⟩

/-- A computation whose result looks like `b`. -/
theorem exists_ok_of_map {ε α β : Type} {x : Except ε α} {f : α → β} {b : β}
    (h : x.map f = .ok b) : ∃ a, x = .ok a ∧ f a = b := by
  cases x with
  | error e => cases h
  | ok a => exact ⟨a, rfl, Except.ok.inj h⟩

theorem eq_ok_of_toOption {ε α : Type} {x : Except ε α} {a : α} (h : x.toOption = some a) :
    x = .ok a := by
  cases x with
  | error e => cases h
  | ok b => exact congrArg Except.ok (Option.some.inj h)

section Run

variable {σ τ ι ε : Type} {step : σ → ι → Except ε σ} {P : σ → Prop} {C : σ → ι → Prop}
  {s s' : σ} {i : ι} {is js : List ι}

/-- One step after the other. -/
def run (step : σ → ι → Except ε σ) (s : σ) (is : List ι) : Except ε σ := is.foldlM step s

/-- No step fails, and `P` holds at the start and after each step. -/
def Always (step : σ → ι → Except ε σ) (P : σ → Prop) (s : σ) (is : List ι) : Prop :=
  ∀ pre, pre <+: is → ∃ s', run step s pre = .ok s' ∧ P s'

/-- `C` holds before each step, of the state there and the input of the step. -/
def Each (step : σ → ι → Except ε σ) (C : σ → ι → Prop) (s : σ) (is : List ι) : Prop :=
  ∀ pre i s', pre ++ [i] <+: is → run step s pre = .ok s' → C s' i

@[simp] theorem run_nil : run step s [] = .ok s := rfl

theorem run_cons : run step s (i :: is) = (step s i).bind fun s' => run step s' is := by
  simp [run, bind]

theorem run_cons_ok (h : step s i = .ok s') : run step s (i :: is) = run step s' is := by
  rw [run_cons, h]; rfl

theorem run_append : run step s (is ++ js) = (run step s is).bind fun s' => run step s' js := by
  simp [run, bind]

/-- What every step preserves holds after every run. -/
theorem run_inv (hstep : ∀ s i s', P s → step s i = .ok s' → P s') (hs : P s)
    (h : run step s is = .ok s') : P s' := by
  induction is generalizing s with
  | nil => cases h; exact hs
  | cons i is ih =>
    rw [run_cons] at h
    cases he : step s i with
    | error e => rw [he] at h; cases h
    | ok s₁ => rw [he] at h; exact ih (hstep s i s₁ hs he) h

/-- What every step preserves until `Q` holds, which every step preserves as well, and which the
inputs with `H` bring about. -/
theorem run_until {Q : σ → Prop} {H : ι → Prop}
    (hstep : ∀ s i s', P s → step s i = .ok s' → P s' ∨ Q s')
    (hkeep : ∀ s i s', Q s → step s i = .ok s' → Q s')
    (hhot : ∀ s i s', H i → P s → step s i = .ok s' → Q s') (hs : P s)
    (h : run step s is = .ok s') : (P s' ∨ Q s') ∧ ((∃ i ∈ is, H i) → Q s') := by
  induction is generalizing s with
  | nil =>
    cases h
    exact ⟨.inl hs, fun ⟨i, hm, _⟩ => by cases hm⟩
  | cons i is ih =>
    obtain ⟨s₁, h₁, h⟩ := bind_eq_ok.mp h
    by_cases hq : Q s₁
    · have hq' := run_inv hkeep hq h
      exact ⟨.inr hq', fun _ => hq'⟩
    · obtain ⟨hpq, hmem⟩ := ih ((hstep s i s₁ hs h₁).resolve_right hq) h
      refine ⟨hpq, fun ⟨j, hm, hj⟩ => ?_⟩
      rcases List.mem_cons.mp hm with rfl | hm
      · exact absurd (hhot s j s₁ hj hs h₁) hq
      · exact hmem ⟨j, hm, hj⟩

/-- What every step that meets `C` preserves holds after every run whose steps all meet `C`. -/
theorem run_each (hstep : ∀ s i s', P s → C s i → step s i = .ok s' → P s') (hs : P s)
    (hC : Each step C s is) (h : run step s is = .ok s') : P s' := by
  induction is generalizing s with
  | nil =>
    cases h
    exact hs
  | cons i is ih =>
    obtain ⟨s₁, h₁, h⟩ := bind_eq_ok.mp h
    have hi : C s i := hC [] i s ⟨is, rfl⟩ rfl
    refine ih (hstep s i s₁ hs hi h₁) (fun pre j s₂ hp hr => ?_) h
    obtain ⟨t, ht⟩ := hp
    exact hC (i :: pre) j s₂ ⟨t, by rw [← ht]; rfl⟩ (by rw [run_cons, h₁]; exact hr)

theorem always_nil : Always step P s [] ↔ P s := by
  simp [Always]

theorem each_nil : Each step C s [] := by
  intro pre i s' hp
  simp at hp

theorem always_cons : Always step P s (i :: is) ↔
    P s ∧ ∃ s', step s i = .ok s' ∧ Always step P s' is := by
  constructor
  · intro h
    obtain ⟨s₀, h₀, hP⟩ := h [] (List.nil_prefix)
    cases h₀
    refine ⟨hP, ?_⟩
    obtain ⟨s₁, h₁, -⟩ := h [i] (List.prefix_cons_inj i |>.mpr List.nil_prefix)
    rw [run_cons] at h₁
    cases he : step s i with
    | error e => rw [he] at h₁; cases h₁
    | ok s' =>
      refine ⟨s', rfl, fun pre hp => ?_⟩
      obtain ⟨s₂, h₂, hP₂⟩ := h (i :: pre) (List.prefix_cons_inj i |>.mpr hp)
      exact ⟨s₂, by rwa [run_cons_ok he] at h₂, hP₂⟩
  · rintro ⟨hP, s', he, h⟩ pre hp
    cases pre with
    | nil => exact ⟨s, rfl, hP⟩
    | cons j pre =>
      obtain ⟨rfl, hpre⟩ := List.cons_prefix_cons.mp hp
      rw [run_cons_ok he]
      exact h pre hpre

theorem each_cons : Each step C s (i :: is) ↔
    C s i ∧ ∀ s', step s i = .ok s' → Each step C s' is := by
  constructor
  · intro h
    refine ⟨h [] i s (by simp) rfl, fun s' he pre j s'' hp hr => ?_⟩
    exact h (i :: pre) j s'' (by simpa using hp) (by rw [run_cons_ok he]; exact hr)
  · rintro ⟨hC, h⟩ pre j s'' hp hr
    cases pre with
    | nil =>
      cases hr
      obtain rfl : j = i := by simpa using hp
      exact hC
    | cons k pre =>
      obtain ⟨rfl, hpre⟩ := List.cons_prefix_cons.mp hp
      rw [run_cons] at hr
      cases he : step s k with
      | error e => rw [he] at hr; cases hr
      | ok s' => rw [he] at hr; exact h s' he pre j s'' hpre hr

instance decidableEach [∀ s i, Decidable (C s i)] :
    ∀ (s : σ) (is : List ι), Decidable (Each step C s is)
  | _, [] => .isTrue each_nil
  | s, i :: is =>
    match he : step s i with
    | .error _ => decidable_of_iff (C s i) <| by
      rw [each_cons]
      exact ⟨fun h => ⟨h, fun s' hs => by cases he.symm.trans hs⟩, fun h => h.1⟩
    | .ok s' =>
      have := decidableEach s' is
      decidable_of_iff (C s i ∧ Each step C s' is) <| by
        rw [each_cons]
        exact ⟨fun h => ⟨h.1, fun t ht => by
          cases he.symm.trans ht
          exact h.2⟩, fun h => ⟨h.1, h.2 s' he⟩⟩

theorem Always.mono {Q : σ → Prop} (hPQ : ∀ s, P s → Q s) (h : Always step P s is) :
    Always step Q s is := by
  intro pre hp
  obtain ⟨s', hr, hP⟩ := h pre hp
  exact ⟨s', hr, hPQ s' hP⟩

/-- If every step that meets `C` keeps `P`, a run whose steps all meet `C` keeps `P`. -/
theorem always_of_each (hstep : ∀ s i, P s → C s i → ∃ s', step s i = .ok s' ∧ P s') (hs : P s)
    (h : Each step C s is) : Always step P s is := by
  induction is generalizing s with
  | nil => exact always_nil.mpr hs
  | cons i is ih =>
    obtain ⟨hC, hrest⟩ := each_cons.mp h
    obtain ⟨s', he, hP⟩ := hstep s i hs hC
    exact always_cons.mpr ⟨hs, s', he, ih hP (hrest s' he)⟩

/-- **When a run keeps `P`.** If `C` says of every state with `P` whether the step on `i` returns
to a state with `P`, then `P` holds all along a run exactly if `C` holds before each step. -/
theorem always_iff_each (hstep : ∀ s i, P s → ((∃ s', step s i = .ok s' ∧ P s') ↔ C s i))
    (hs : P s) : Always step P s is ↔ Each step C s is := by
  refine ⟨fun h => ?_, always_of_each (fun s i hP => (hstep s i hP).mpr) hs⟩
  induction is generalizing s with
  | nil => exact each_nil
  | cons i is ih =>
    obtain ⟨-, s', he, hrest⟩ := always_cons.mp h
    have hP : P s' := by
      obtain ⟨s'', h', hP⟩ := hrest [] List.nil_prefix
      cases h'; exact hP
    refine each_cons.mpr ⟨(hstep s i hs).mp ⟨s', he, hP⟩, fun s₁ he₁ => ?_⟩
    rw [he] at he₁; cases he₁
    exact ih hP hrest

/-- The same where every step returns and keeps an invariant: what `C` says may rely on it. -/
theorem always_iff_each_of_inv {I : σ → Prop}
    (hstep : ∀ s i, I s → ∃ s', step s i = .ok s' ∧ I s' ∧ (P s → (P s' ↔ C s i))) (hs : I s) :
    Always step P s is ↔ P s ∧ Each step C s is := by
  induction is generalizing s with
  | nil => simp [always_nil, each_nil]
  | cons i is ih =>
    obtain ⟨s', he, hs', hiff⟩ := hstep s i hs
    have hrest : Always step P s (i :: is) ↔ P s ∧ P s' ∧ Each step C s' is := by
      rw [always_cons, ← ih hs']
      simp [he]
    have heach : Each step C s (i :: is) ↔ C s i ∧ Each step C s' is := by
      rw [each_cons]
      simp [he]
    rw [hrest, heach]
    exact and_congr_right fun hP => and_congr_left' (hiff hP)

/-- The same where what `C` says relies on an invariant that holds as long as `P` does. -/
theorem always_iff_each_of_kept {I : σ → Prop}
    (hstep : ∀ s i, P s → I s → ((∃ s', step s i = .ok s' ∧ P s') ↔ C s i))
    (hinv : ∀ s i s', P s → I s → step s i = .ok s' → P s' → I s') (hs : P s) (hi : I s) :
    Always step P s is ↔ Each step C s is := by
  induction is generalizing s with
  | nil => exact ⟨fun _ => each_nil, fun _ => always_nil.mpr hs⟩
  | cons i is ih =>
    constructor
    · intro h
      obtain ⟨-, s', he, hrest⟩ := always_cons.mp h
      have hP : P s' := by
        obtain ⟨s'', h', hP⟩ := hrest [] List.nil_prefix
        cases h'
        exact hP
      refine each_cons.mpr ⟨(hstep s i hs hi).mp ⟨s', he, hP⟩, fun s₁ he₁ => ?_⟩
      cases he.symm.trans he₁
      exact (ih hP (hinv s i s' hs hi he hP)).mp hrest
    · intro h
      obtain ⟨hC, hrest⟩ := each_cons.mp h
      obtain ⟨s', he, hP⟩ := (hstep s i hs hi).mpr hC
      exact always_cons.mpr ⟨hs, s', he, (ih hP (hinv s i s' hs hi he hP)).mpr (hrest s' he)⟩

end Run

end Run
