import UgTrain.CLib.Ended

/-!
# Numbers of a whole string: `strtoul`, `strtol`, `atoi`

The value of the digits that a string starts with, 0 if there are none. `Digits b ds n`: all of `ds`
is digits, with the value `n`; `strtoul_digits` and `strtol_digits` read them.
-/

namespace CLib

/-- `isxdigit`. -/
def isXDigit (c : Char) : Bool := (digitVal 16 c).isSome

/-- `strtoul`, `strtoull`. -/
def strtoul (b : Nat) (s : List Char) : BitVec 64 :=
  match scanNum b s with
  | some (neg, n, _) => toULong neg n
  | none => 0

/-- `strtol`, `strtoll`. -/
def strtol (b : Nat) (s : List Char) : BitVec 64 :=
  match scanNum b s with
  | some (neg, n, _) => toLong neg n
  | none => 0

/-- `atoi`: the lowest 32 bits. -/
def atoi (s : List Char) : BitVec 32 := (strtol 10 s).setWidth 32

/-- Digits of base `b` with the value `n`. -/
def Digits (b : Nat) (ds : List Char) (n : Nat) : Prop := ds ≠ [] ∧ scanDigits b 0 ds = (n, [])

instance (b : Nat) (ds : List Char) (n : Nat) : Decidable (Digits b ds n) :=
  inferInstanceAs (Decidable (_ ∧ _))

section Proofs

variable {b n : Nat} {ds : List Char} {c : Char}

theorem Digits.digit (h : Digits b ds n) (hc : c ∈ ds) : (digitVal b c).isSome :=
  digits_of_scanDigits_nil (congrArg Prod.snd h.2) c hc

theorem digits_toDigits (hb : 1 < b) (hb' : b ≤ 16) (n : Nat) : Digits b (Nat.toDigits b n) n := by
  have h := scanDigits_toDigits hb hb' n (t := []) (by simp [NoDigit])
  rw [List.append_nil] at h
  exact ⟨Nat.toDigits_ne_nil, h⟩

/-- No digit is the `x` of a prefix. -/
theorem digitVal_x (hb : b ≤ 16) : digitVal b 'x' = none ∧ digitVal b 'X' = none := by
  have hx : charVal 'x' = some 33 := by decide
  have hX : charVal 'X' = some 33 := by decide
  constructor
  · simp [digitVal, hx, Option.filter]
    omega
  · simp [digitVal, hX, Option.filter]
    omega

theorem scanBody_digits (h : Digits b ds n) (hb : b ≤ 16) : scanBody b ds = some (n, []) := by
  have hdig := fun c => h.digit (c := c)
  obtain ⟨hne, hscan⟩ := h
  cases ds with
  | nil => exact absurd rfl hne
  | cons c u =>
    have hplain : c = '0' → u.head? ≠ some 'x' ∧ u.head? ≠ some 'X' := by
      intro _
      cases u with
      | nil => simp
      | cons x u =>
        have hd := hdig x (by simp)
        obtain ⟨hx, hX⟩ := digitVal_x hb
        rw [List.head?_cons]
        exact ⟨fun heq => digit_ne hd hx (Option.some.inj heq),
          fun heq => digit_ne hd hX (Option.some.inj heq)⟩
    rw [scanBody_plain hplain, if_pos (hdig c (by simp)), hscan]

theorem scanNum_digits (h : Digits b ds n) (hb : b ≤ 16) :
    scanNum b ds = some (false, n, []) := by
  have hbody := scanBody_digits h hb
  have hdig := fun c => h.digit (c := c)
  cases ds with
  | nil => exact absurd rfl h.1
  | cons c u =>
    obtain ⟨hsp, hm, hp⟩ := digit_not_space (hdig c (by simp))
    have hdrop : (c :: u).dropWhile isSpace = c :: u :=
      List.dropWhile_cons_of_neg (by simp [hsp])
    have hsign : scanSign (c :: u) = (false, c :: u) := scanSign_noSign (by simp [hm, hp])
    simp only [scanNum, hdrop, hsign, hbody, Option.map_some]

theorem scanNum_neg_digits (h : Digits b ds n) (hb : b ≤ 16) :
    scanNum b ('-' :: ds) = some (true, n, []) := by
  have hdrop : ('-' :: ds).dropWhile isSpace = '-' :: ds :=
    List.dropWhile_cons_of_neg (by decide)
  simp only [scanNum, hdrop, scanSign, scanBody_digits h hb, Option.map_some]

theorem strtoul_digits (h : Digits b ds n) (hb : b ≤ 16) : strtoul b ds = toULong false n := by
  rw [strtoul, scanNum_digits h hb]

theorem strtol_digits (h : Digits b ds n) (hb : b ≤ 16) : strtol b ds = toLong false n := by
  rw [strtol, scanNum_digits h hb]

theorem strtol_neg_digits (h : Digits b ds n) (hb : b ≤ 16) :
    strtol b ('-' :: ds) = toLong true n := by
  rw [strtol, scanNum_neg_digits h hb]

end Proofs

end CLib
