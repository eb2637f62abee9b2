import UgTrain.CLib.Scan

/-!
# Texts that are ended inside of a buffer

What is scanned or searched in a buffer is the C string: a text `s` with a `nul` behind it gives the
same, whatever stands behind the `nul`.
-/

namespace CLib

section Ended

variable {b acc : Nat} {s t l : List Char} {c : Char}

theorem charVal_nul : charVal nul = none := by decide

theorem digitVal_nul : digitVal b nul = none := by
  unfold digitVal
  rw [charVal_nul]
  rfl

theorem scanDigits_ended (b acc : Nat) (s t : List Char) : scanDigits b acc (s ++ nul :: t) =
    ((scanDigits b acc s).1, (scanDigits b acc s).2 ++ nul :: t) := by
  induction s generalizing acc with
  | nil => simp [scanDigits, digitVal_nul]
  | cons c s ih =>
    simp only [List.cons_append, scanDigits]
    cases digitVal b c with
    | some d => exact ih _
    | none => rfl

/-- A number without the prefix of a hexadecimal one. -/
theorem scanBody_plain {u : List Char} (h : c = '0' → u.head? ≠ some 'x' ∧ u.head? ≠ some 'X') :
    scanBody b (c :: u) =
      if (digitVal b c).isSome then some (scanDigits b 0 (c :: u)) else none := by
  unfold scanBody
  split
  · rename_i heq
    cases heq
    exact absurd rfl (h rfl).1
  · rename_i heq
    cases heq
    exact absurd rfl (h rfl).2
  · rename_i heq
    cases heq
    rfl
  · rename_i heq
    cases heq

theorem scanBody_ended : scanBody b (s ++ nul :: t) =
    (scanBody b s).map fun r => (r.1, r.2 ++ nul :: t) := by
  cases s with
  | nil =>
    rw [List.nil_append, scanBody_plain (by simp [nul]), digitVal_nul]
    rfl
  | cons c u =>
    have hall := scanDigits_ended b 0 (c :: u) t
    by_cases h : c = '0' → u.head? ≠ some 'x' ∧ u.head? ≠ some 'X'
    · have h' : c = '0' → (u ++ nul :: t).head? ≠ some 'x' ∧ (u ++ nul :: t).head? ≠ some 'X' := by
        cases u with
        | nil => simp [nul]
        | cons x u => exact h
      rw [List.cons_append] at hall ⊢
      rw [scanBody_plain h, scanBody_plain h', hall]
      split <;> rfl
    · obtain ⟨rfl, hu⟩ := Classical.not_imp.mp h
      cases u with
      | nil => simp at hu
      | cons x u =>
        have hrec := scanDigits_ended b 0 u t
        obtain rfl | rfl : x = 'x' ∨ x = 'X' := by
          simp only [List.head?_cons, ne_eq, Option.some.injEq] at hu
          tauto
        all_goals
          simp only [List.cons_append, scanBody, Option.map_some, hrec]
          split <;> rfl

theorem scanSign_ended : scanSign (s ++ nul :: t) = ((scanSign s).1, (scanSign s).2 ++ nul :: t) := by
  cases s with
  | nil => rfl
  | cons c s => exact scanSign_append (List.cons_ne_nil c s)

theorem scanNum_ended : scanNum b (s ++ nul :: t) =
    (scanNum b s).map fun r => (r.1, r.2.1, r.2.2 ++ nul :: t) := by
  have hdrop : (s ++ nul :: t).dropWhile isSpace = s.dropWhile isSpace ++ nul :: t := by
    rw [List.dropWhile_append]
    split
    · rename_i h
      rw [List.isEmpty_iff.mp h]
      rfl
    · rfl
  unfold scanNum
  simp only [hdrop, scanSign_ended, scanBody_ended, Option.map_map]
  rfl

theorem scanULong_ended : scanULong b (s ++ nul :: t) =
    (scanULong b s).map fun r => (r.1, r.2 ++ nul :: t) := by
  unfold scanULong
  rw [scanNum_ended, Option.map_map, Option.map_map]
  rfl

theorem scanLit_ended (hl : nul ∉ l) : scanLit l (s ++ nul :: t) =
    (scanLit l s).map (· ++ nul :: t) := by
  induction l generalizing s with
  | nil => rfl
  | cons x l ih =>
    simp only [List.mem_cons, not_or] at hl
    cases s with
    | nil => simp [scanLit, hl.1]
    | cons c s =>
      simp only [List.cons_append, scanLit]
      split
      · exact ih hl.2
      · rfl

theorem scanPtr_ended : scanPtr (s ++ nul :: t) =
    (scanPtr s).map fun r => (r.1, r.2 ++ nul :: t) := by
  unfold scanPtr
  rw [scanLit_ended (by decide)]
  cases scanLit ['0', 'x'] s with
  | none => rfl
  | some r => exact scanULong_ended

theorem scanChar_ended : scanChar (s ++ nul :: t) = scanChar s := by
  cases s with
  | nil => rfl
  | cons c s => rfl

theorem strchr_ended (hc : c ≠ nul) : strchr (s ++ nul :: t) c = strchr s c := by
  induction s with
  | nil => simp [strchr, Ne.symm hc]
  | cons x s ih => simp only [List.cons_append, strchr, ih]

end Ended

end CLib
