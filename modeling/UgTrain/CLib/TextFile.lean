import UgTrain.CLib.Str

/-!
# Lines of a text file

`getline` of an input stream, and the loop that calls it as long as the stream is good. A line break
ends a line and the last line need not have one (`FileLines`): behind a final line break the loop gives
one more, empty line (`FileLines.getlines`).
-/

namespace CLib

/-- `getline`: the line, and what is left of the stream if it is still good. -/
def getline : List Char → List Char × Option (List Char)
  | [] => ([], none)
  | c :: cs =>
    if c = '\n' then ([], some cs)
    else
      let (line, rest) := getline cs
      (c :: line, rest)

theorem getline_length {s t l : List Char} (h : getline s = (l, some t)) : t.length < s.length := by
  induction s generalizing l with
  | nil => cases h
  | cons c s ih =>
    unfold getline at h
    split at h
    · cases h
      simp
    · have hrest : (getline s).2 = some t := congrArg Prod.snd h
      have hlt := ih (Prod.ext rfl hrest)
      rw [List.length_cons]
      omega

/-- `while (good()) getline(..)`. -/
def getlines (s : List Char) : List (List Char) :=
  match _h : getline s with
  | (l, none) => [l]
  | (l, some t) => l :: getlines t
termination_by s.length
decreasing_by exact getline_length _h

/-- Lines with their line breaks. -/
def fileText (ls : List (List Char)) : List Char := ls.flatMap (· ++ ['\n'])

/-- The lines of a file. -/
inductive FileLines : List Char → List (List Char) → Prop where
  | nil : FileLines [] []
  | last {l : List Char} (h : '\n' ∉ l) (hne : l ≠ []) : FileLines l [l]
  | line {l t : List Char} {ls : List (List Char)} (h : '\n' ∉ l) (ht : FileLines t ls) :
    FileLines (l ++ '\n' :: t) (l :: ls)

/-- Nothing stands behind the last line break. -/
def Closed (s : List Char) : Prop := s.getLast?.all (· = '\n')

section Getline

variable {s t l : List Char} {ls ls' : List (List Char)}

theorem getline_last (h : '\n' ∉ l) : getline l = (l, none) := by
  induction l with
  | nil => rfl
  | cons c l ih =>
    simp only [List.mem_cons, not_or] at h
    rw [getline, if_neg (Ne.symm h.1), ih h.2]

theorem getline_line (h : '\n' ∉ l) (t : List Char) : getline (l ++ '\n' :: t) = (l, some t) := by
  induction l with
  | nil => rfl
  | cons c l ih =>
    simp only [List.mem_cons, not_or] at h
    rw [List.cons_append, getline, if_neg (Ne.symm h.1), ih h.2]

theorem getline_cases (s : List Char) :
    '\n' ∉ s ∨ ∃ l t, '\n' ∉ l ∧ s = l ++ '\n' :: t := by
  by_cases h : '\n' ∈ s
  · obtain ⟨l, t, hs, hl⟩ := List.eq_append_cons_of_mem h
    exact .inr ⟨l, t, hl, hs⟩
  · exact .inl h

theorem getlines_last (h : '\n' ∉ l) : getlines l = [l] := by
  rw [getlines]
  split
  · rename_i heq
    rw [getline_last h] at heq
    cases heq
    rfl
  · rename_i heq
    rw [getline_last h] at heq
    cases heq

theorem getlines_line (h : '\n' ∉ l) (t : List Char) :
    getlines (l ++ '\n' :: t) = l :: getlines t := by
  rw [getlines]
  split
  · rename_i heq
    rw [getline_line h] at heq
    cases heq
  · rename_i heq
    rw [getline_line h] at heq
    cases heq
    rfl

/-- Each text has lines. -/
theorem exists_fileLines (s : List Char) : ∃ ls, FileLines s ls := by
  induction hn : s.length using Nat.strongRecOn generalizing s with
  | _ n ih =>
    rcases getline_cases s with h | ⟨l, t, hl, rfl⟩
    · by_cases hs : s = []
      · exact ⟨[], hs ▸ .nil⟩
      · exact ⟨[s], .last h hs⟩
    · have hlt : t.length < n := by
        rw [← hn, List.length_append, List.length_cons]
        omega
      obtain ⟨ls, ht⟩ := ih _ hlt t rfl
      exact ⟨l :: ls, .line hl ht⟩

theorem closed_line : Closed (l ++ '\n' :: t) ↔ Closed t := by
  unfold Closed
  rw [List.getLast?_append]
  cases t with
  | nil => simp
  | cons c t => simp [List.getLast?_cons]

theorem FileLines.getlines_closed (h : FileLines s ls) (hs : Closed s) :
    getlines s = ls ++ [[]] := by
  induction h with
  | nil => exact getlines_last List.not_mem_nil
  | last h hne =>
    rename_i l
    unfold Closed at hs
    rw [List.getLast?_eq_some_getLast hne] at hs
    have hlast : l.getLast hne = '\n' := by simpa using hs
    exact absurd (hlast ▸ List.getLast_mem hne) h
  | line h ht ih => rw [getlines_line h, ih (closed_line.mp hs), List.cons_append]

/-- The last line has no line break. -/
theorem FileLines.getlines_open (h : FileLines s ls) (hs : ¬ Closed s) :
    getlines s = ls ∧ ls ≠ [] := by
  induction h with
  | nil => exact absurd rfl hs
  | last h hne => exact ⟨getlines_last h, List.cons_ne_nil _ _⟩
  | line h ht ih =>
    rw [getlines_line h, (ih fun hc => hs (closed_line.mpr hc)).1]
    exact ⟨rfl, List.cons_ne_nil _ _⟩

theorem closed_fileText (ls : List (List Char)) : Closed (fileText ls) := by
  induction ls with
  | nil => rfl
  | cons l ls ih =>
    rw [fileText, List.flatMap_cons, List.append_assoc, List.singleton_append]
    exact closed_line.mpr ih

theorem FileLines.unique (h : FileLines s ls) (h' : FileLines s ls') : ls = ls' := by
  by_cases hs : Closed s
  · exact List.append_cancel_right ((h.getlines_closed hs).symm.trans (h'.getlines_closed hs))
  · exact (h.getlines_open hs).1.symm.trans (h'.getlines_open hs).1

theorem FileLines.not_mem (h : FileLines s ls) : ∀ l ∈ ls, '\n' ∉ l := by
  induction h with
  | nil => simp
  | last h hne => simpa using h
  | line h ht ih => simpa using ⟨h, ih⟩

/-- Lines that are written are the lines of the file. -/
theorem fileLines_fileText (h : ∀ l ∈ ls, '\n' ∉ l) : FileLines (fileText ls) ls := by
  induction ls with
  | nil => exact .nil
  | cons l ls ih =>
    have htext : fileText (l :: ls) = l ++ '\n' :: fileText ls := by simp [fileText]
    rw [htext]
    exact .line (h l List.mem_cons_self) (ih fun l hl => h l (List.mem_cons_of_mem _ hl))

end Getline

end CLib
