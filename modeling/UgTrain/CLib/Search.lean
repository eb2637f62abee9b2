import UgTrain.CLib.Str

/-!
# Searching from the end

`strrchr`: the index of the last occurrence of a character in the C string at the start of a buffer
(`strrchr_eq_some`, `strrchr_eq_none`).
-/

namespace CLib

/-- `strrchr`: the index of the last `c` in the C string at the start of `s`. -/
def strrchr : List Char → Char → Option Nat
  | [], _ => none
  | x :: xs, c =>
    if x = nul then none
    else match strrchr xs c with
      | some i => some (i + 1)
      | none => if x = c then some 0 else none

section Strrchr

variable {s p r : List Char} {c : Char} {i : Nat}

theorem cstr_cons_nul : cstr (nul :: s) = [] := by simp [cstr]

theorem cstr_cons {x : Char} (h : x ≠ nul) : cstr (x :: s) = x :: cstr s := by simp [cstr, h]

theorem strrchr_eq_none : strrchr s c = none ↔ c ∉ cstr s := by
  induction s with
  | nil => simp [strrchr, cstr]
  | cons x xs ih =>
    by_cases h0 : x = nul
    · subst h0
      simp [strrchr, cstr_cons_nul]
    · rw [cstr_cons h0, List.mem_cons, not_or, ← ih]
      simp only [strrchr, if_neg h0]
      cases strrchr xs c with
      | some i => simp
      | none => simp [eq_comm]

/-- The last `c`: no `nul` before it, no other `c` behind it. -/
theorem strrchr_append_cons (hp : nul ∉ p) (hr : c ∉ cstr r) (hc : c ≠ nul) :
    strrchr (p ++ c :: r) c = some p.length := by
  induction p with
  | nil => simp [strrchr, hc, strrchr_eq_none.mpr hr]
  | cons x xs ih =>
    simp only [List.mem_cons, not_or] at hp
    simp [strrchr, Ne.symm hp.1, ih hp.2]

/-- Every last `c` is of this form. -/
theorem strrchr_eq_some (hc : c ≠ nul) :
    strrchr s c = some i ↔ ∃ p r, s = p ++ c :: r ∧ p.length = i ∧ nul ∉ p ∧ c ∉ cstr r := by
  constructor
  · intro h
    induction s generalizing i with
    | nil => simp [strrchr] at h
    | cons x xs ih =>
      simp only [strrchr] at h
      split at h
      · cases h
      · rename_i h0
        split at h
        · rename_i j hj
          obtain ⟨p, r, rfl, rfl, hp, hr⟩ := ih hj
          cases h
          exact ⟨x :: p, r, rfl, rfl, by simp [hp, Ne.symm h0], hr⟩
        · rename_i hnone
          split at h
          · rename_i hx
            subst hx
            cases h
            exact ⟨[], xs, rfl, rfl, by simp, strrchr_eq_none.mp hnone⟩
          · cases h
  · rintro ⟨p, r, rfl, rfl, hp, hr⟩
    exact strrchr_append_cons hp hr hc

/-- The last occurrence is in front of the end of the C string. -/
theorem strrchr_lt (hc : c ≠ nul) (h : strrchr s c = some i) : i < (cstr s).length := by
  obtain ⟨p, r, rfl, rfl, hp, -⟩ := (strrchr_eq_some hc).mp h
  have hcstr : cstr (p ++ c :: r) = p ++ c :: cstr r := by
    unfold cstr
    rw [List.takeWhile_append_of_pos, List.takeWhile_cons_of_pos]
    · simpa using hc
    · intro x hx
      have : x ≠ nul := fun e => hp (e ▸ hx)
      simpa using this
  simp [hcstr]

end Strrchr

/-! ## Cleared bytes -/

theorem cstr_length_le {s z : List Char} : (cstr (s ++ nul :: z)).length ≤ s.length := by
  induction s with
  | nil => simp [cstr]
  | cons x xs ih =>
    by_cases h0 : x = nul
    · subst h0
      simp [cstr]
    · rw [List.cons_append, cstr_cons h0]
      simpa using ih

/-- Clearing bytes from `dst` on ends the C string there. -/
theorem memset_cstr_length {buf buf' : List Char} {dst n : Nat}
    (h : memset buf dst (n + 1) = .ok buf') : (cstr buf').length ≤ dst := by
  unfold memset store at h
  split at h
  · rename_i hle
    cases h
    rw [List.replicate_succ, List.append_assoc, List.cons_append]
    exact cstr_length_le.trans (List.length_take_le _ _)
  · cases h

/-- So does a `nul` at `i`. -/
theorem cstr_set_nul_le {s : List Char} {i : Nat} : (cstr (s.set i nul)).length ≤ i := by
  induction s generalizing i with
  | nil => simp [cstr]
  | cons x xs ih =>
    cases i with
    | zero => simp [cstr]
    | succ i =>
      rw [List.set_cons_succ]
      by_cases h0 : x = nul
      · subst h0
        simp [cstr]
      · rw [cstr_cons h0]
        simpa using ih

end CLib
