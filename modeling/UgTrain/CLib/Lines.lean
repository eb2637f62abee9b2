import UgTrain.CLib.Ended

/-!
# Numbers at the end of a line

A scan skips blanks, and a line break is one. So a number is read from the line that it is searched in
if this has any other character (`scanULong_line_eq`), and from the text behind it if it has not
(`scanULong_blank`). `NumFmt` are the formats of a number, and `NumFmt.Open` the lines that end before
the number.
-/

namespace CLib

/-- Only blanks. -/
def Blank (s : List Char) : Prop := ∀ c ∈ s, isSpace c = true

instance (s : List Char) : Decidable (Blank s) := inferInstanceAs (Decidable (∀ c ∈ s, _))

section Blank

variable {b : Nat} {l t : List Char}

theorem dropWhile_blank (h : Blank l) : (l ++ t).dropWhile isSpace = t.dropWhile isSpace := by
  rw [List.dropWhile_append, if_pos]
  exact List.isEmpty_iff.mpr (List.dropWhile_eq_nil_iff.mpr h)

theorem dropWhile_not_blank (h : ¬ Blank l) :
    (l ++ t).dropWhile isSpace = l.dropWhile isSpace ++ t ∧ l.dropWhile isSpace ≠ [] := by
  have hne : l.dropWhile isSpace ≠ [] := fun h0 => h (List.dropWhile_eq_nil_iff.mp h0)
  refine ⟨?_, hne⟩
  rw [List.dropWhile_append, if_neg (by simpa using hne)]

/-- Whether there is a number is decided by the first character. -/
theorem scanBody_isSome (hb : 0 < b) : (scanBody b l).isSome =
    l.head?.any fun c => (digitVal b c).isSome := by
  have h0 : (digitVal b '0').isSome = true := by
    have : charVal '0' = some 0 := by decide
    simp [digitVal, this, hb]
  unfold scanBody
  split
  · simp [h0]
  · simp [h0]
  · rename_i c s _ _
    cases hd : (digitVal b c).isSome <;> simp [hd]
  · rfl

theorem scanBody_line_none (hb : 0 < b) (h : scanBody b (l ++ ['\n']) = none) :
    scanBody b (l ++ '\n' :: t) = none := by
  have hsome : (scanBody b (l ++ '\n' :: t)).isSome = (scanBody b (l ++ ['\n'])).isSome := by
    rw [scanBody_isSome hb, scanBody_isSome hb]
    cases l <;> rfl
  rw [h] at hsome
  exact Option.not_isSome_iff_eq_none.mp (by simp [hsome])

/-- Behind blanks the line breaks off: the number is that of the text behind. -/
theorem scanULong_blank (h : Blank l) : scanULong b (l ++ '\n' :: t) = scanULong b t := by
  have hdrop : (l ++ '\n' :: t).dropWhile isSpace = t.dropWhile isSpace := by
    rw [dropWhile_blank h]
    rfl
  unfold scanULong scanNum
  rw [hdrop]

/-- **A line that is not blank** gives the number. -/
theorem scanULong_line_eq (hb : 0 < b) (h : ¬ Blank l) :
    (scanULong b (l ++ '\n' :: t)).map (·.1) = (scanULong b (l ++ ['\n'])).map (·.1) := by
  cases hs : scanULong b (l ++ ['\n']) with
  | some r =>
    obtain ⟨v, r⟩ := r
    rw [scanULong_line hs]
    rfl
  | none =>
    obtain ⟨hdrop, hne⟩ := dropWhile_not_blank (t := '\n' :: t) h
    have hdrop' := (dropWhile_not_blank (t := ['\n']) h).1
    have hnum : scanNum b (l ++ ['\n']) = none := by
      unfold scanULong at hs
      exact Option.map_eq_none_iff.mp hs
    have hnum' : scanNum b (l ++ '\n' :: t) = none := by
      unfold scanNum at hnum ⊢
      simp only [hdrop', scanSign_append hne, Option.map_eq_none_iff] at hnum
      simp only [hdrop, scanSign_append hne, Option.map_eq_none_iff]
      exact scanBody_line_none hb hnum
    rw [scanULong, hnum']
    rfl

end Blank

/-! ## Formats -/

/-- The formats of a number: `0x%lx` and `%lu`. -/
inductive NumFmt where
  | ptr
  | dec
  deriving DecidableEq, Repr

namespace NumFmt

def base : NumFmt → Nat
  | ptr => 16
  | dec => 10

/-- The literal text of the format. -/
def lit : NumFmt → List Char
  | ptr => ['0', 'x']
  | dec => []

/-- `sscanf` of one number: its value and the text behind it. -/
def sscanf : NumFmt → List Char → Option (BitVec 64 × List Char)
  | ptr => scanPtr
  | dec => scanULong 10

/-- The number at the start of a text. -/
def scan (fmt : NumFmt) (s : List Char) : Option (BitVec 64) := (fmt.sscanf s).map (·.1)

/-- The text ends before the number: the literal text of the format, then only blanks. -/
def Open (fmt : NumFmt) (l : List Char) : Prop := fmt.lit <+: l ∧ Blank (l.drop fmt.lit.length)

instance (fmt : NumFmt) (l : List Char) : Decidable (fmt.Open l) :=
  inferInstanceAs (Decidable (_ ∧ _))

/-- The number that such a text goes on with. -/
def resume (fmt : NumFmt) (t : List Char) : Option (BitVec 64) := (scanULong fmt.base t).map (·.1)

section Scan

variable {fmt : NumFmt} {l s t : List Char}

theorem base_pos : 0 < fmt.base := by cases fmt <;> decide

theorem scan_eq : fmt.scan s = (scanLit fmt.lit s).bind fmt.resume := by
  cases fmt with
  | ptr =>
    rw [scan, sscanf, scanPtr, Option.map_bind]
    rfl
  | dec => rfl

theorem scanLit_self (lit : List Char) : scanLit lit (lit ++ s) = some s := by
  induction lit with
  | nil => rfl
  | cons c lit ih => simp [scanLit, ih]

theorem scan_open (h : fmt.Open l) : fmt.scan (l ++ '\n' :: t) = fmt.resume t := by
  obtain ⟨⟨w, rfl⟩, hw⟩ := h
  rw [List.drop_left' rfl] at hw
  rw [scan_eq, List.append_assoc, scanLit_self, Option.bind_some, resume, scanULong_blank hw]
  rfl

/-- Such a text has no other character than blanks behind the literal text. -/
theorem Open.not_mem {c : Char} (h : fmt.Open l) (hc : c ∉ fmt.lit) (hs : isSpace c = false) :
    c ∉ l := by
  obtain ⟨⟨w, rfl⟩, hw⟩ := h
  rw [List.drop_left' rfl] at hw
  rw [List.mem_append, not_or]
  exact ⟨hc, fun hm => by simp [hw c hm] at hs⟩

theorem scan_open_line (h : fmt.Open l) : fmt.scan (l ++ ['\n']) = none := scan_open h

/-- Literal text without a line break is found in the line or not at all. -/
theorem scanLit_line {lit : List Char} (hl : '\n' ∉ lit) : scanLit lit (l ++ '\n' :: t) =
    if lit <+: l then some (l.drop lit.length ++ '\n' :: t) else none := by
  induction lit generalizing l with
  | nil => rfl
  | cons c lit ih =>
    simp only [List.mem_cons, not_or] at hl
    cases l with
    | nil => simp [scanLit, hl.1]
    | cons x l =>
      simp only [List.cons_append, scanLit, List.cons_prefix_cons, List.length_cons, List.drop_succ_cons]
      by_cases hx : x = c
      · subst hx
        simp [ih hl.2]
      · rw [if_neg hx, if_neg (fun h => hx h.1.symm)]

/-- **A line that does not end before the number** gives it. -/
theorem scan_line (h : ¬ fmt.Open l) : fmt.scan (l ++ '\n' :: t) = fmt.scan (l ++ ['\n']) := by
  have hlit : '\n' ∉ fmt.lit := by cases fmt <;> decide
  rw [scan_eq, scan_eq, scanLit_line hlit, scanLit_line hlit]
  split
  · rename_i hp
    have hb : ¬ Blank (l.drop fmt.lit.length) := fun hb => h ⟨hp, hb⟩
    exact scanULong_line_eq base_pos hb
  · rfl

/-- Bytes behind the end of the text do not matter. -/
theorem scan_append_nul (n : Nat) : fmt.scan (s ++ List.replicate n nul) = fmt.scan s := by
  cases n with
  | zero => rw [List.replicate_zero, List.append_nil]
  | succ n =>
    rw [List.replicate_succ]
    cases fmt with
    | ptr =>
      rw [scan, scan, sscanf, scanPtr_ended, Option.map_map]
      rfl
    | dec =>
      rw [scan, scan, sscanf, scanULong_ended, Option.map_map]
      rfl

end Scan

end NumFmt

end CLib
