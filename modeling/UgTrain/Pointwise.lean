import Mathlib

/-!
# Lists related element by element

`List.Forall₂ R l l'` for a relation `R` between a state of an element and a later one: what each
change of an element keeps, a change of the list keeps. Where the relation is that an image `f` of
the elements is the same, it is `l'.map f = l.map f`.
-/

namespace Pointwise

variable {α : Type} {R : α → α → Prop} {l l' l₁ l₂ l₃ : List α} {i : Nat} {a b : α} {f : α → α}

theorem refl (hrefl : ∀ a, R a a) (l : List α) : List.Forall₂ R l l :=
  List.forall₂_same.mpr fun a _ => hrefl a

theorem trans (htrans : ∀ a b c, R a b → R b c → R a c) (h : List.Forall₂ R l₁ l₂)
    (h' : List.Forall₂ R l₂ l₃) : List.Forall₂ R l₁ l₃ := by
  induction h generalizing l₃ with
  | nil => exact h'
  | cons hab hrest ih =>
    cases h' with
    | cons hbc hrest' => exact .cons (htrans _ _ _ hab hbc) (ih hrest')

/-- One element is changed. -/
theorem modify (hrefl : ∀ a, R a a) (h : ∀ a, l[i]? = some a → R a (f a)) :
    List.Forall₂ R l (l.modify i f) := by
  induction l generalizing i with
  | nil => simp
  | cons a l ih =>
    cases i with
    | zero =>
      rw [List.modify_zero_cons]
      exact .cons (h a rfl) (refl hrefl l)
    | succ i =>
      rw [List.modify_succ_cons]
      exact .cons (hrefl a) (ih h)

/-- One element is replaced. -/
theorem set (hrefl : ∀ a, R a a) (h : ∀ a, l[i]? = some a → R a b) :
    List.Forall₂ R l (l.set i b) := by
  have hset : l.set i b = l.modify i fun _ => b := by
    refine List.ext_getElem? fun j => ?_
    rw [List.getElem?_modify, List.getElem?_set']
    by_cases hij : i = j <;> simp [hij, Function.const_def]
  rw [hset]
  exact modify hrefl h

/-- All elements are changed. -/
theorem map (h : ∀ a, R a (f a)) (l : List α) : List.Forall₂ R l (l.map f) :=
  List.forall₂_map_right_iff.mpr (refl h l)

/-- An element of the later list, and what it was before. -/
theorem getElem? {β : Type} {R : α → β → Prop} {l' : List β} {b : β} (h : List.Forall₂ R l l')
    (hb : l'[i]? = some b) :
    ∃ a, l[i]? = some a ∧ R a b := by
  induction h generalizing i with
  | nil => simp at hb
  | cons hab hrest ih =>
    cases i with
    | zero =>
      cases hb
      exact ⟨_, rfl, hab⟩
    | succ i => exact ih hb

/-- One element is replaced in the one list, and changed in the other one. -/
theorem set_modify {β : Type} {R : α → β → Prop} {l' : List β} {g : β → β}
    (h : List.Forall₂ R l l') (hR : ∀ b, l'[i]? = some b → R a (g b)) :
    List.Forall₂ R (l.set i a) (l'.modify i g) := by
  induction h generalizing i with
  | nil => simp
  | cons hab hrest ih =>
    cases i with
    | zero =>
      rw [List.set_cons_zero, List.modify_zero_cons]
      exact .cons (hR _ rfl) hrest
    | succ i =>
      rw [List.set_cons_succ, List.modify_succ_cons]
      exact .cons hab (ih hR)

/-- Two lists side by side. -/
theorem zip {β : Type} {S : β → β → Prop} {k k' : List β} (h : List.Forall₂ R l l')
    (h' : List.Forall₂ S k k') :
    List.Forall₂ (fun x y => R x.1 y.1 ∧ S x.2 y.2) (l.zip k) (l'.zip k') := by
  induction h generalizing k k' with
  | nil => exact .nil
  | cons hab _ ih =>
    cases h' with
    | nil => exact .nil
    | cons hcd hrest => exact .cons ⟨hab, hcd⟩ (ih hrest)

theorem of_length (h : l.length = l'.length) : List.Forall₂ (fun _ _ => True) l l' :=
  List.forall₂_iff_get.mpr ⟨h, fun _ _ _ => trivial⟩

/-! ## The same image -/

section Image

variable {α β : Type} {f : α → β} {g : α → α} {l l' : List α} {i : Nat} {x y : α}

theorem getElem?_of_map_eq (h : l'.map f = l.map f) (hx : l[i]? = some x) :
    ∃ x', l'[i]? = some x' ∧ f x' = f x := by
  have := congrArg (·[i]?) h
  simp only [List.getElem?_map, hx, Option.map_some, Option.map_eq_some_iff] at this
  exact this

/-- A change that keeps the image of its element. -/
theorem map_modify_of (hg : ∀ x, l[i]? = some x → f (g x) = f x) :
    (l.modify i g).map f = l.map f := by
  refine List.ext_getElem? fun j => ?_
  simp only [List.getElem?_map, List.getElem?_modify]
  by_cases hij : i = j
  · subst hij
    cases hx : l[i]? with
    | none => rfl
    | some x => simp [hg x hx]
  · cases l[j]? <;> simp [hij]

theorem map_modify_eq (hg : ∀ x, f (g x) = f x) (l : List α) (i : Nat) :
    (l.modify i g).map f = l.map f :=
  map_modify_of fun x _ => hg x

theorem map_set_of (hx : l[i]? = some x) (h : f y = f x) : (l.set i y).map f = l.map f := by
  rw [List.map_set, h]
  obtain ⟨hi, rfl⟩ := List.getElem?_eq_some_iff.mp hx
  rw [← List.getElem_map f (h := by simpa using hi)]
  exact List.set_getElem_self _

theorem modify_concat (l : List α) (x : α) (g : α → α) :
    (l ++ [x]).modify l.length g = l ++ [g x] := by
  induction l with
  | nil => rfl
  | cons y l ih => exact congrArg (y :: ·) ih

end Image

end Pointwise
