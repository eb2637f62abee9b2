import UgTrain.CLib.Str

/-!
# Fields of a text

The elements between the separators of a text: `splitOn` takes them apart, `intercalate` puts them
together (`sepText`: with a separator behind each).
-/

namespace CLib

/-- Elements with the separator behind each. -/
def sepText (separator : Char) (els : List (List Char)) : List Char := els.flatMap (· ++ [separator])

section Fields

variable {separator : Char} {pre els rest : List (List Char)} {x value : List Char}

theorem not_mem_intercalate {c d : Char} (hc : c ≠ d) (h : ∀ x ∈ els, c ∉ x) :
    c ∉ [d].intercalate els := by
  induction els with
  | nil => simp
  | cons x els ih =>
    have ih := ih fun y hy => h y (List.mem_cons_of_mem _ hy)
    cases els with
    | nil => simpa using h x
    | cons y els =>
      rw [List.intercalate_cons_cons]
      simpa [hc, h x List.mem_cons_self] using ih

theorem intercalate_append (hne : rest ≠ []) : [separator].intercalate (pre ++ rest) =
    sepText separator pre ++ [separator].intercalate rest := by
  induction pre with
  | nil => rfl
  | cons x pre ih =>
    rw [List.cons_append, List.intercalate_cons_of_ne_nil (by simp [hne]), ih]
    simp [sepText]

theorem sepText_eq (hne : els ≠ []) :
    sepText separator els = [separator].intercalate els ++ [separator] := by
  have hlast := List.dropLast_append_getLast hne
  rw [← hlast, intercalate_append (by simp), List.intercalate_singleton]
  simp [sepText]

theorem mem_splitOn {c : Char} (hx : x ∈ value.splitOn separator) (hc : c ∈ x) :
    c ∈ value ∧ c ≠ separator := by
  induction value generalizing x with
  | nil =>
    rw [List.splitOn_nil, List.mem_singleton] at hx
    rw [hx] at hc
    cases hc
  | cons d value ih =>
    rw [List.splitOn_cons_eq_if_modifyHead] at hx
    split at hx
    · rcases List.mem_cons.mp hx with rfl | hx
      · cases hc
      · obtain ⟨hmem, hne⟩ := ih hx hc
        exact ⟨List.mem_cons_of_mem _ hmem, hne⟩
    · rename_i hd
      obtain ⟨l, ls, hls⟩ := List.exists_cons_of_ne_nil (List.splitOn_ne_nil separator value)
      rw [hls, List.modifyHead_cons] at hx
      rcases List.mem_cons.mp hx with rfl | hx
      · rcases List.mem_cons.mp hc with rfl | hc
        · exact ⟨List.mem_cons_self, by simpa using hd⟩
        · obtain ⟨hmem, hne⟩ := ih (x := l) (hls ▸ List.mem_cons_self) hc
          exact ⟨List.mem_cons_of_mem _ hmem, hne⟩
      · obtain ⟨hmem, hne⟩ := ih (hls ▸ List.mem_cons_of_mem _ hx) hc
        exact ⟨List.mem_cons_of_mem _ hmem, hne⟩

end Fields

end CLib
