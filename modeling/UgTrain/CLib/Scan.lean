import UgTrain.CLib.Str

/-!
# Numbers in text: `printf` and `sscanf`

`printHex` (`0x%lx`) and `printDec` (`%lu`, `%zu`, `%u`, `%d` of a nonnegative value) are the
conversions that write a number, `scanULong` (`%lx`, `%lu`), `scanLong` (`%zd`) and `scanPtr`
(`0x%lx`) the ones that read it. A scan gives the value and the text behind the number; it stops
at the end of the C string, since `nul` is neither blank nor digit.

* `scanDigits_toDigits`: reading printed digits gives the number.
* `scanPtr_printHex`, `scanULong_printDec`, `scanLong_printDec`: the round trips.
* `scanULong_append`: a number that ends before the end of the text is read the same with any
  text behind it.
-/

namespace CLib

/-- `isspace` in the C locale. -/
def isSpace (c : Char) : Bool :=
  c = ' ' || c = '\t' || c = '\n' || c = '\x0b' || c = '\x0c' || c = '\r'

/-- The value of a digit character, up to base 36. -/
def charVal (c : Char) : Option Nat :=
  if '0' ≤ c ∧ c ≤ '9' then some (c.toNat - '0'.toNat)
  else if 'a' ≤ c ∧ c ≤ 'z' then some (c.toNat - 'a'.toNat + 10)
  else if 'A' ≤ c ∧ c ≤ 'Z' then some (c.toNat - 'A'.toNat + 10)
  else none

/-- The value of a digit in base `b`. -/
def digitVal (b : Nat) (c : Char) : Option Nat := (charVal c).filter (· < b)

/-- Reads digits of base `b` behind the value `acc`. -/
def scanDigits (b : Nat) : Nat → List Char → Nat × List Char
  | acc, [] => (acc, [])
  | acc, c :: cs =>
    match digitVal b c with
    | some d => scanDigits b (acc * b + d) cs
    | none => (acc, c :: cs)

/-- The sign of a number. -/
def scanSign : List Char → Bool × List Char
  | '-' :: s => (true, s)
  | '+' :: s => (false, s)
  | s => (false, s)

/-- The digits of a number: `%x` also takes a leading `0x`. -/
def scanBody (b : Nat) : List Char → Option (Nat × List Char)
  | '0' :: 'x' :: s => some (if b = 16 then scanDigits b 0 s else (0, 'x' :: s))
  | '0' :: 'X' :: s => some (if b = 16 then scanDigits b 0 s else (0, 'X' :: s))
  | c :: s => if (digitVal b c).isSome then some (scanDigits b 0 (c :: s)) else none
  | [] => none

/-- Blanks, a sign and a number: the sign, the magnitude and the text behind. -/
def scanNum (b : Nat) (s : List Char) : Option (Bool × Nat × List Char) :=
  let (neg, s) := scanSign (s.dropWhile isSpace)
  (scanBody b s).map fun (n, s) => (neg, n, s)

/-- `strtoul`: a number that does not fit gives `ULONG_MAX`. -/
def toULong (neg : Bool) (n : Nat) : BitVec 64 :=
  if 2 ^ 64 ≤ n then BitVec.allOnes 64
  else if neg then - BitVec.ofNat 64 n else BitVec.ofNat 64 n

/-- `strtol`: a number that does not fit gives `LONG_MAX` or `LONG_MIN`. -/
def toLong (neg : Bool) (n : Nat) : BitVec 64 :=
  if neg then (if 2 ^ 63 < n then BitVec.ofNat 64 (2 ^ 63) else - BitVec.ofNat 64 n)
  else (if 2 ^ 63 ≤ n then BitVec.ofNat 64 (2 ^ 63 - 1) else BitVec.ofNat 64 n)

/-- `%lx` (`b = 16`) and `%lu` (`b = 10`). -/
def scanULong (b : Nat) (s : List Char) : Option (BitVec 64 × List Char) :=
  (scanNum b s).map fun (neg, n, s) => (toULong neg n, s)

/-- `%zd`. -/
def scanLong (s : List Char) : Option (BitVec 64 × List Char) :=
  (scanNum 10 s).map fun (neg, n, s) => (toLong neg n, s)

/-- Literal text of a format. -/
def scanLit : List Char → List Char → Option (List Char)
  | [], s => some s
  | c :: cs, x :: s => if x = c then scanLit cs s else none
  | _ :: _, [] => none

/-- `0x%lx`. -/
def scanPtr (s : List Char) : Option (BitVec 64 × List Char) :=
  (scanLit ['0', 'x'] s).bind (scanULong 16)

/-- `%c`: the first byte of a C string that is not empty. -/
def scanChar : List Char → Option Char
  | [] => none
  | c :: _ => if c = nul then none else some c

/-- `0x%lx`. -/
def printHex (a : BitVec 64) : List Char := '0' :: 'x' :: Nat.toDigits 16 a.toNat

/-- `%lu`, `%zu`, `%u`, `%d` of a value that is not negative. -/
def printDec (n : Nat) : List Char := Nat.toDigits 10 n

/-- `%d`. -/
def printInt (n : Int) : List Char :=
  if n < 0 then '-' :: printDec n.natAbs else printDec n.natAbs

/-! ## Digits -/

theorem digitVal_digitChar {b d : Nat} (hb : b ≤ 16) (hd : d < b) :
    digitVal b d.digitChar = some d := by
  have h : charVal d.digitChar = some d := by
    have hd' : d < 16 := by omega
    interval_cases d <;> decide
  rw [digitVal, h]
  simp [hd]

/-- The text does not go on with a digit of base `b`. -/
def NoDigit (b : Nat) (s : List Char) : Prop := ∀ c ∈ s.head?, digitVal b c = none

theorem noDigit_cons {b : Nat} {c : Char} {s : List Char} :
    NoDigit b (c :: s) ↔ digitVal b c = none := by
  simp [NoDigit]

theorem scanDigits_noDigit {b acc : Nat} {s : List Char} (h : NoDigit b s) :
    scanDigits b acc s = (acc, s) := by
  cases s with
  | nil => rfl
  | cons c s => simp [scanDigits, noDigit_cons.mp h]

/-- Printed digits are read as the number behind the digits before them. -/
theorem scanDigits_toDigits_append {b : Nat} (hb : 1 < b) (hb' : b ≤ 16) (n : Nat) :
    ∀ (acc : Nat) (t : List Char),
      scanDigits b acc (Nat.toDigits b n ++ t) =
        scanDigits b (acc * b ^ (Nat.toDigits b n).length + n) t := by
  induction n using Nat.strongRecOn with
  | _ n ih =>
    intro acc t
    rw [Nat.toDigits_eq_if hb]
    split
    · rename_i hn
      simp [scanDigits, digitVal_digitChar hb' hn]
    · rename_i hn
      have hdiv : n / b < n := Nat.div_lt_self (by omega) hb
      have hmod : n % b < b := Nat.mod_lt _ (by omega)
      rw [List.append_assoc, ih _ hdiv]
      simp only [List.singleton_append, scanDigits, digitVal_digitChar hb' hmod,
        List.length_append, List.length_singleton, Nat.pow_succ]
      congr 1
      calc (acc * b ^ (Nat.toDigits b (n / b)).length + n / b) * b + n % b
          = acc * (b ^ (Nat.toDigits b (n / b)).length * b) + (b * (n / b) + n % b) := by ring
        _ = _ := by rw [Nat.div_add_mod]

/-- **Reading printed digits gives the number.** -/
theorem scanDigits_toDigits {b : Nat} (hb : 1 < b) (hb' : b ≤ 16) (n : Nat) {t : List Char}
    (ht : NoDigit b t) : scanDigits b 0 (Nat.toDigits b n ++ t) = (n, t) := by
  rw [scanDigits_toDigits_append hb hb', Nat.zero_mul, Nat.zero_add, scanDigits_noDigit ht]

theorem digit_of_mem_toDigits {b : Nat} (hb : 1 < b) (hb' : b ≤ 16) (n : Nat) {c : Char}
    (h : c ∈ Nat.toDigits b n) : (digitVal b c).isSome := by
  induction n using Nat.strongRecOn with
  | _ n ih =>
    rw [Nat.toDigits_eq_if hb] at h
    split at h
    · rename_i hn
      simp only [List.mem_singleton] at h
      rw [h, digitVal_digitChar hb' hn]; rfl
    · rename_i hn
      rcases List.mem_append.mp h with h | h
      · exact ih _ (Nat.div_lt_self (by omega) hb) h
      · simp only [List.mem_singleton] at h
        rw [h, digitVal_digitChar hb' (Nat.mod_lt _ (by omega))]; rfl

/-- What a digit is not: no end, no line break, no separator. -/
theorem digit_ne {b : Nat} {c x : Char} (h : (digitVal b c).isSome)
    (hx : digitVal b x = none) : c ≠ x := by
  rintro rfl
  rw [hx] at h; cases h

/-! ## Round trips -/

/-- A printed number starts with a digit and has no `x` behind it. -/
theorem scanBody_toDigits {b : Nat} (hb : 1 < b) (hb' : b ≤ 16) (n : Nat) {t : List Char}
    (ht : NoDigit b t) (hx : ∀ c ∈ t.head?, c ≠ 'x' ∧ c ≠ 'X') :
    scanBody b (Nat.toDigits b n ++ t) = some (n, t) := by
  have hscan := scanDigits_toDigits hb hb' n ht
  have hdig := fun c => digit_of_mem_toDigits hb hb' n (c := c)
  have hxd : ∀ c, c = 'x' ∨ c = 'X' → digitVal b c = none := by
    rintro c (rfl | rfl)
    · have : charVal 'x' = some 33 := by decide
      simp [digitVal, this, Option.filter]; omega
    · have : charVal 'X' = some 33 := by decide
      simp [digitVal, this, Option.filter]; omega
  cases hd : Nat.toDigits b n with
  | nil => exact absurd hd Nat.toDigits_ne_nil
  | cons c ds =>
    rw [hd] at hscan hdig
    have hc := hdig c (by simp)
    -- The character behind a leading `0` is a digit or the first one of `t`.
    have hno : ∀ y s, c :: ds ++ t = '0' :: y :: s → y ≠ 'x' ∧ y ≠ 'X' := by
      intro y s hs
      cases ds with
      | nil =>
        simp only [List.cons_append, List.nil_append, List.cons.injEq] at hs
        exact hx y (by simp [hs.2])
      | cons d ds =>
        simp only [List.cons_append, List.cons.injEq] at hs
        have hdd := hdig d (by simp)
        rw [← hs.2.1]
        exact ⟨digit_ne hdd (hxd _ (.inl rfl)), digit_ne hdd (hxd _ (.inr rfl))⟩
    rw [← hscan]
    unfold scanBody
    split
    · rename_i s hs; exact absurd rfl (hno _ _ hs).1
    · rename_i s hs; exact absurd rfl (hno _ _ hs).2
    · rename_i c' s _ _ hs
      simp only [List.cons_append, List.cons.injEq] at hs
      obtain ⟨rfl, rfl⟩ := hs
      rw [if_pos hc]; rfl
    · rename_i hs; simp at hs

theorem scanSign_noSign {s : List Char} (h : ∀ c ∈ s.head?, c ≠ '-' ∧ c ≠ '+') :
    scanSign s = (false, s) := by
  unfold scanSign
  split
  · exact absurd rfl (h '-' (by simp)).1
  · exact absurd rfl (h '+' (by simp)).2
  · rfl

theorem digit_not_space {b : Nat} {c : Char} (h : (digitVal b c).isSome) :
    isSpace c = false ∧ c ≠ '-' ∧ c ≠ '+' := by
  have hne : ∀ x : Char, charVal x = none → c ≠ x := by
    rintro x hx rfl
    simp [digitVal, hx] at h
  have h1 := hne ' ' (by decide)
  have h2 := hne '\t' (by decide)
  have h3 := hne '\n' (by decide)
  have h4 := hne '\x0b' (by decide)
  have h5 := hne '\x0c' (by decide)
  have h6 := hne '\r' (by decide)
  refine ⟨?_, hne _ (by decide), hne _ (by decide)⟩
  simp [isSpace, h1, h2, h3, h4, h5, h6]

theorem scanNum_toDigits {b : Nat} (hb : 1 < b) (hb' : b ≤ 16) (n : Nat) {t : List Char}
    (ht : NoDigit b t) (hx : ∀ c ∈ t.head?, c ≠ 'x' ∧ c ≠ 'X') :
    scanNum b (Nat.toDigits b n ++ t) = some (false, n, t) := by
  have hdig := fun c => digit_of_mem_toDigits hb hb' n (c := c)
  have hbody := scanBody_toDigits hb hb' n ht hx
  cases hd : Nat.toDigits b n with
  | nil => exact absurd hd Nat.toDigits_ne_nil
  | cons c ds =>
    rw [hd] at hdig hbody
    obtain ⟨hsp, hm, hp⟩ := digit_not_space (hdig c (by simp))
    have hdrop : (c :: ds ++ t).dropWhile isSpace = c :: ds ++ t := by
      rw [List.cons_append, List.dropWhile_cons_of_neg (by simp [hsp])]
    unfold scanNum
    rw [hdrop, scanSign_noSign (by simp [hm, hp])]
    simp only [hbody, Option.map_some]

/-- `0x%lx` reads what `0x%lx` wrote. -/
theorem scanPtr_printHex (a : BitVec 64) {t : List Char} (ht : NoDigit 16 t)
    (hx : ∀ c ∈ t.head?, c ≠ 'x' ∧ c ≠ 'X') : scanPtr (printHex a ++ t) = some (a, t) := by
  have h := scanNum_toDigits (b := 16) (by decide) (by decide) a.toNat ht hx
  have hlt := a.isLt
  simp only [scanPtr, printHex, List.cons_append, scanLit, ↓reduceIte, Option.bind_some, scanULong,
    h, Option.map_some, toULong]
  rw [if_neg (by omega)]
  simp

/-- `%lu` reads what `%lu` wrote. -/
theorem scanULong_printDec (n : Nat) (hn : n < 2 ^ 64) {t : List Char} (ht : NoDigit 10 t)
    (hx : ∀ c ∈ t.head?, c ≠ 'x' ∧ c ≠ 'X') :
    scanULong 10 (printDec n ++ t) = some (BitVec.ofNat 64 n, t) := by
  have h := scanNum_toDigits (b := 10) (by decide) (by decide) n ht hx
  simp only [printDec, scanULong, h, Option.map_some, toULong]
  rw [if_neg (by omega)]
  simp

/-- `%zd` reads what `%lu` wrote, below `2 ^ 63`. -/
theorem scanLong_printDec (n : Nat) (hn : n < 2 ^ 63) {t : List Char} (ht : NoDigit 10 t)
    (hx : ∀ c ∈ t.head?, c ≠ 'x' ∧ c ≠ 'X') :
    scanLong (printDec n ++ t) = some (BitVec.ofNat 64 n, t) := by
  have h := scanNum_toDigits (b := 10) (by decide) (by decide) n ht hx
  simp only [printDec, scanLong, h, Option.map_some, toLong]
  rw [if_neg (by decide), if_neg (by omega)]

/-! ## A number that ends before the end of the text -/

section Append

variable {b acc n : Nat} {neg : Bool} {s t r : List Char}

theorem scanDigits_append (h : (scanDigits b acc s).2 ≠ []) :
    scanDigits b acc (s ++ t) = ((scanDigits b acc s).1, (scanDigits b acc s).2 ++ t) := by
  induction s generalizing acc with
  | nil => simp [scanDigits] at h
  | cons c s ih =>
    simp only [List.cons_append, scanDigits] at h ⊢
    split
    · rename_i d hd
      simp only [hd] at h
      exact ih h
    · rfl

/-- If all of the text is read, all of it is digits. -/
theorem digits_of_scanDigits_nil {a : Nat} (h : (scanDigits b a s).2 = []) :
    ∀ c ∈ s, (digitVal b c).isSome := by
  induction s generalizing a with
  | nil => simp
  | cons c s ih =>
    simp only [scanDigits] at h
    split at h
    · rename_i d hd
      intro x hx
      rcases List.mem_cons.mp hx with rfl | hx
      · simp [hd]
      · exact ih h x hx
    · cases h

theorem scanBody_append (h : scanBody b s = some (n, r)) (hr : r ≠ []) :
    scanBody b (s ++ t) = some (n, r ++ t) := by
  have key : ∀ s' acc', scanDigits b acc' s' = (n, r) → scanDigits b acc' (s' ++ t) = (n, r ++ t) := by
    intro s' acc' hs
    rw [scanDigits_append (by rw [hs]; exact hr), hs]
  unfold scanBody at h
  split at h
  · rename_i s'
    simp only [Option.some.injEq] at h
    simp only [List.cons_append, scanBody, Option.some.injEq]
    split at h
    · rename_i hb; rw [if_pos hb]; exact key _ _ h
    · rename_i hb; rw [if_neg hb]; cases h; rfl
  · rename_i s'
    simp only [Option.some.injEq] at h
    simp only [List.cons_append, scanBody, Option.some.injEq]
    split at h
    · rename_i hb; rw [if_pos hb]; exact key _ _ h
    · rename_i hb; rw [if_neg hb]; cases h; rfl
  · rename_i c s' hx hX
    split at h
    · rename_i hc
      rw [Option.some.injEq] at h
      have hs' : s' ≠ [] := by
        rintro rfl
        obtain ⟨d, hd⟩ := Option.isSome_iff_exists.mp hc
        simp only [scanDigits, hd] at h
        cases h; exact hr rfl
      obtain ⟨y, s'', rfl⟩ := List.exists_cons_of_ne_nil hs'
      have e := key _ _ h
      simp only [List.cons_append] at e ⊢
      unfold scanBody
      split
      · rename_i hs
        simp only [List.cons.injEq] at hs
        obtain ⟨rfl, rfl, -⟩ := hs
        exact (hx _ rfl rfl).elim
      · rename_i hs
        simp only [List.cons.injEq] at hs
        obtain ⟨rfl, rfl, -⟩ := hs
        exact (hX _ rfl rfl).elim
      · rename_i hs
        simp only [List.cons.injEq] at hs
        obtain ⟨rfl, rfl⟩ := hs
        rw [if_pos hc, e]
      · rename_i hs; cases hs
    · cases h
  · cases h

/-- A sign is one character. -/
theorem scanSign_cases (s : List Char) : (scanSign s).2 = s ∨ ∃ c, s = c :: (scanSign s).2 := by
  unfold scanSign
  split
  · exact .inr ⟨_, rfl⟩
  · exact .inr ⟨_, rfl⟩
  · exact .inl rfl

theorem scanSign_append (hs : s ≠ []) : scanSign (s ++ t) = ((scanSign s).1, (scanSign s).2 ++ t) := by
  obtain ⟨c, s', rfl⟩ := List.exists_cons_of_ne_nil hs
  unfold scanSign
  simp only [List.cons_append]
  split
  · rename_i h; cases h; rfl
  · rename_i h; cases h; rfl
  · rename_i hm hp
    split
    · rename_i h; cases h; exact (hm _ rfl).elim
    · rename_i h; cases h; exact (hp _ rfl).elim
    · rfl

/-- **A number that ends before the end of the text** is read the same with any text behind. -/
theorem scanNum_append (h : scanNum b s = some (neg, n, r)) (hr : r ≠ []) :
    scanNum b (s ++ t) = some (neg, n, r ++ t) := by
  unfold scanNum at h ⊢
  simp only [Option.map_eq_some_iff] at h ⊢
  obtain ⟨⟨n', r'⟩, hbody, heq⟩ := h
  obtain ⟨rfl, rfl, rfl⟩ : (scanSign (s.dropWhile isSpace)).1 = neg ∧ n' = n ∧ r' = r := by
    simpa using heq
  have hne : s.dropWhile isSpace ≠ [] := by
    intro e; rw [e] at hbody; simp [scanSign, scanBody] at hbody
  have hdrop : (s ++ t).dropWhile isSpace = s.dropWhile isSpace ++ t := by
    rw [List.dropWhile_append, if_neg (by simpa using hne)]
  rw [hdrop, scanSign_append hne]
  exact ⟨(n', r' ++ t), scanBody_append hbody hr, rfl⟩

/-- A number is not the end of a line. -/
theorem scanNum_line (h : scanNum b (s ++ ['\n']) = some (neg, n, r)) : r ≠ [] := by
  rintro rfl
  unfold scanNum at h
  simp only [Option.map_eq_some_iff] at h
  obtain ⟨⟨n', r'⟩, hbody, heq⟩ := h
  have hr' : r' = [] := by simp at heq; exact heq.2.2
  subst hr'
  set u := (s ++ ['\n']).dropWhile isSpace with hu
  have hne : u ≠ [] := by
    intro e; rw [e] at hbody; simp [scanSign, scanBody] at hbody
  have hlast : u.getLast? = some '\n' := by
    obtain ⟨p, hp⟩ := (List.dropWhile_suffix isSpace : u <:+ s ++ ['\n'])
    have := congrArg List.getLast? hp
    rw [List.getLast?_append_of_ne_nil _ hne] at this
    simpa using this
  -- The characters of a number.
  have hnd : ¬ (digitVal b '\n').isSome := by
    have : charVal '\n' = none := by decide
    simp [digitVal, this]
  have key : ∀ v n', scanBody b v = some (n', []) → v.getLast? = some '\n' → False := by
    intro v n' hv hl
    have hall : ∀ c ∈ v, c = 'x' ∨ c = 'X' ∨ c = '0' ∨ (digitVal b c).isSome := by
      unfold scanBody at hv
      split at hv
      · rename_i w
        simp only [Option.some.injEq] at hv
        split at hv
        · have hd := digits_of_scanDigits_nil (b := b) (a := 0) (s := w) (by rw [hv])
          intro c hc
          simp only [List.mem_cons] at hc
          rcases hc with rfl | rfl | hc
          · simp
          · simp
          · exact .inr (.inr (.inr (hd c hc)))
        · cases hv
      · rename_i w
        simp only [Option.some.injEq] at hv
        split at hv
        · have hd := digits_of_scanDigits_nil (b := b) (a := 0) (s := w) (by rw [hv])
          intro c hc
          simp only [List.mem_cons] at hc
          rcases hc with rfl | rfl | hc
          · simp
          · simp
          · exact .inr (.inr (.inr (hd c hc)))
        · cases hv
      · rename_i c w _ _
        split at hv
        · have hd := digits_of_scanDigits_nil (b := b) (a := 0) (s := c :: w)
            (by rw [Option.some.inj hv])
          exact fun c hc => .inr (.inr (.inr (hd c hc)))
        · cases hv
      · cases hv
    rcases hall _ (List.mem_of_getLast? hl) with h | h | h | h
    · exact absurd h (by decide)
    · exact absurd h (by decide)
    · exact absurd h (by decide)
    · exact hnd h
  rcases scanSign_cases u with hs | ⟨c, hc⟩
  · rw [hs] at hbody; exact key _ _ hbody hlast
  · have hne2 : (scanSign u).2 ≠ [] := by
      intro e; rw [e] at hbody; simp [scanBody] at hbody
    rw [hc, List.getLast?_cons_of_ne_nil hne2] at hlast
    exact key _ _ hbody hlast

/-- A number of a line is read the same with any text behind the line. -/
theorem scanULong_line {v : BitVec 64} (h : scanULong b (s ++ ['\n']) = some (v, r)) :
    scanULong b (s ++ '\n' :: t) = some (v, r ++ t) := by
  unfold scanULong at h ⊢
  obtain ⟨⟨neg, n, r'⟩, hnum, heq⟩ := Option.map_eq_some_iff.mp h
  simp only [Prod.mk.injEq] at heq
  obtain ⟨rfl, rfl⟩ := heq
  have e := scanNum_append (t := t) hnum (scanNum_line hnum)
  rw [List.append_assoc, List.singleton_append] at e
  rw [e]; rfl

theorem scanLit_append {l : List Char} (h : scanLit l s = some r) :
    scanLit l (s ++ t) = some (r ++ t) := by
  induction l generalizing s with
  | nil => simp only [scanLit, Option.some.injEq] at h ⊢; rw [h]
  | cons c l ih =>
    cases s with
    | nil => simp [scanLit] at h
    | cons x s =>
      simp only [List.cons_append, scanLit] at h ⊢
      split
      · rename_i hx; rw [if_pos hx] at h; exact ih h
      · rename_i hx; rw [if_neg hx] at h; cases h

theorem scanLit_eq_some {l : List Char} (h : scanLit l s = some r) : s = l ++ r := by
  induction l generalizing s with
  | nil => simp only [scanLit, Option.some.injEq] at h; rw [h]; rfl
  | cons c l ih =>
    cases s with
    | nil => simp [scanLit] at h
    | cons x s =>
      simp only [scanLit] at h
      split at h
      · rename_i hx; rw [hx, ih h]; rfl
      · cases h

/-- `0x%lx` in a line is read the same with any text behind the line. -/
theorem scanPtr_line {v : BitVec 64} (h : scanPtr (s ++ ['\n']) = some (v, r)) :
    scanPtr (s ++ '\n' :: t) = some (v, r ++ t) := by
  unfold scanPtr at h ⊢
  obtain ⟨u, hu, hv⟩ := Option.bind_eq_some_iff.mp h
  have hlit := scanLit_eq_some hu
  have hune : u ≠ [] := by
    rintro rfl; simp [scanULong, scanNum, scanSign, scanBody] at hv
  obtain ⟨w, rfl⟩ : ∃ w, u = w ++ ['\n'] := by
    have hl := congrArg List.getLast? hlit
    rw [List.getLast?_append_of_ne_nil _ hune, List.getLast?_concat] at hl
    exact ⟨u.dropLast, (List.dropLast_append_getLast? _ (by rw [← hl]; rfl)).symm⟩
  have e := scanLit_append (t := t) hu
  simp only [List.append_assoc, List.singleton_append] at e
  rw [e, Option.bind_some]
  exact scanULong_line hv

end Append

end CLib
