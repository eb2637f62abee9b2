import UgTrain.TypeWidth

/-!
# Integer literals

A number of the config is converted with the library functions of 64 bits and then narrowed to the
type. `literal_iff`: this is exact for decimal and hexadecimal literals of all integer types, apart from
the upper half of the bit patterns of an `i64`, where `strtoll` stops at its largest number.
-/

namespace UgTrain

open CLib

/-- A number in decimal, or a bit pattern in hexadecimal. -/
inductive Literal where
  | dec (v : Int)
  | hex (b : Nat)
  deriving DecidableEq, Repr

namespace Literal

/-- How the literal is written, with any zeros in front. -/
def Text (lit : Str) : Literal → Prop
  | .dec v => ∃ ds, Digits 10 ds v.natAbs ∧ lit = if v < 0 then '-' :: ds else ds
  | .hex b => ∃ ds, Digits 16 ds b ∧ lit = '0' :: 'x' :: ds

/-- The numbers and the bit patterns of a type. -/
def InRange (sg : Bool) (w : Nat) : Literal → Prop
  | .dec v => if sg then -2 ^ (w - 1) ≤ v ∧ v < 2 ^ (w - 1) else 0 ≤ v ∧ v < 2 ^ w
  | .hex b => b < 2 ^ w

instance (sg : Bool) (w : Nat) (l : Literal) : Decidable (l.InRange sg w) :=
  match l with
  | .dec v => inferInstanceAs
      (Decidable (if sg then -2 ^ (w - 1) ≤ v ∧ v < 2 ^ (w - 1) else 0 ≤ v ∧ v < 2 ^ w))
  | .hex b => inferInstanceAs (Decidable (b < 2 ^ w))

/-- The value has the number, or the bit pattern. -/
def Read (sg : Bool) (w : Nat) (value : Value) : Literal → Prop
  | .dec v => value.toInt sg w = v
  | .hex b => (value.setWidth w).toNat = b

end Literal

/-- The literal stands behind the comparison `cmp`. A wish value need not have one, and has a blank
behind it; a check value may end the line. -/
def LitAt (use : ValueUse) (text cmp lit : Str) : Prop :=
  ∃ rest, text = cmp ++ lit ++ rest ∧
    match use with
    | .wish _ => cmp ∈ [[], "l ".toList, "g ".toList] ∧ rest.head? = some ' '
    | .check _ _ => cmp ∈ ["l ".toList, "g ".toList, "e ".toList] ∧ rest.head?.all (· = ' ')
    | .plain => False

/-! ## Narrowing -/

section Narrow

variable {w n : Nat} {v : Int}

theorem toLong_false (h : n < 2 ^ 63) : toLong false n = BitVec.ofInt 64 n := by
  unfold toLong
  rw [if_neg Bool.noConfusion, if_neg (by omega)]
  exact (BitVec.ofInt_natCast 64 n).symm

theorem toLong_true (h : n ≤ 2 ^ 63) : toLong true n = BitVec.ofInt 64 (-n) := by
  unfold toLong
  rw [if_pos rfl, if_neg (by omega), BitVec.ofInt_neg, BitVec.ofInt_natCast]

theorem toULong_false (h : n < 2 ^ 64) : toULong false n = BitVec.ofNat 64 n := by
  unfold toULong
  rw [if_neg (by omega), if_neg Bool.noConfusion]

/-- A number of a signed type survives the narrowing. -/
theorem toInt_ofInt_signed (hw : w ∈ [8, 16, 32, 64]) (h : -2 ^ (w - 1) ≤ v ∧ v < 2 ^ (w - 1)) :
    Value.toInt true w (BitVec.ofInt 64 v) = v := by
  have hmod : Value.toInt true w (BitVec.ofInt 64 v) =
      Int.bmod ((v % 2 ^ 64).toNat : Int) (2 ^ w) := by
    rw [Value.toInt, if_pos rfl, BitVec.toInt_setWidth, BitVec.toNat_ofInt]
    rfl
  rw [hmod, Int.bmod_def]
  simp only [List.mem_cons, List.not_mem_nil, or_false] at hw
  rcases hw with rfl | rfl | rfl | rfl
  all_goals
    norm_num at h ⊢
    omega

theorem toNat_setWidth_ofNat (hw : w ≤ 64) (h : n < 2 ^ w) :
    ((BitVec.ofNat 64 n).setWidth w).toNat = n := by
  rw [BitVec.setWidth_ofNat_of_le hw, BitVec.toNat_ofNat, Nat.mod_eq_of_lt h]

end Narrow

/-! ## Reading a literal -/

section Scan

variable {fl : FloatLib} {cfg : List CfgEntry} {use : ValueUse} {check : Check} {line lit rest : Str}
  {start lidx n b : Nat} {v : Int} {hex neg : Bool} {c : Char} {ds : List Char}

theorem isDigit_of_digitVal (h : (digitVal 10 c).isSome) : c.isDigit := by
  unfold digitVal charVal at h
  split at h
  · rename_i hc
    simpa [Char.isDigit, Char.le_def] using hc
  · exfalso
    split at h
    · simp [Option.filter] at h
    · split at h
      · simp [Option.filter] at h
      · cases h

theorem digit_ne_blank (h : (digitVal b c).isSome) : c ≠ ' ' :=
  digit_ne h (by simp [digitVal, show charVal ' ' = none by decide])

theorem scanValue_pass
    (h : ∀ c ∈ lit, c ≠ ' ' ∧ if hex = true then isXDigit c = true else c.isDigit = true ∨ neg = true)
    (hrest : rest.head?.all (· = ' ')) :
    scanValue use hex neg lidx false (lit ++ rest) = .ok (lidx + lit.length, false) := by
  induction lit generalizing lidx with
  | nil =>
    cases rest with
    | nil => rfl
    | cons c rest =>
      obtain rfl : c = ' ' := by simpa using hrest
      rfl
  | cons c lit ih =>
    obtain ⟨hblank, hc⟩ := h c (by simp)
    have ih : scanValue use hex neg (lidx + 1) false (lit ++ rest) =
      .ok (lidx + 1 + lit.length, false) := ih fun c hc => h c (List.mem_cons_of_mem _ hc)
    rw [List.length_cons, show lidx + (lit.length + 1) = lidx + 1 + lit.length by omega, ← ih,
      List.cons_append, scanValue, if_neg hblank]
    cases hex with
    | true =>
      rw [if_pos rfl] at hc ⊢
      rw [if_pos hc]
    | false =>
      rw [if_neg Bool.noConfusion] at hc ⊢
      rw [if_pos (by tauto)]

theorem take_ne_0x (hds : Digits 10 ds n) (hrest : rest.head?.all (· = ' ')) :
    (ds ++ rest).take 2 ≠ "0x".toList := by
  have hdig := fun c => hds.digit (c := c)
  intro h
  cases ds with
  | nil => exact hds.1 rfl
  | cons c ds =>
    cases ds with
    | nil =>
      cases rest with
      | nil => cases h
      | cons x rest =>
        obtain rfl : x = ' ' := by simpa using hrest
        exact absurd (List.cons.inj (List.cons.inj h).2).1 (by decide)
    | cons x ds =>
      obtain rfl : x = 'x' := (List.cons.inj (List.cons.inj h).2).1
      exact absurd (hdig 'x' (by simp)) (by decide)

theorem parseValueAt_dec (hdrop : line.drop start = lit ++ rest) (hlit : (Literal.dec v).Text lit)
    (hrest : rest.head?.all (· = ' ')) : parseValueAt fl cfg use check line start =
      .ok ⟨parseNumber fl use.type 10 lit, start + lit.length + 1, check, false, none⟩ := by
  obtain ⟨ds, hds, hlit⟩ := hlit
  have hlen : ¬ line.length < start := by
    intro h
    rw [List.drop_eq_nil_of_le (by omega)] at hdrop
    obtain ⟨hnil, -⟩ := List.append_eq_nil_iff.mp hdrop.symm
    rw [hnil] at hlit
    split at hlit
    · cases hlit
    · exact hds.1 hlit.symm
  have htake : (line.drop start).take 2 ≠ "0x".toList := by
    rw [hdrop, hlit]
    split
    · exact fun h => absurd (List.cons.inj h).1 (by decide)
    · exact take_ne_0x hds hrest
  have hscan : scanValue use false (decide ((line.drop start).head? = some '-')) start false
      (line.drop start) = .ok (start + lit.length, false) := by
    rw [hdrop]
    refine scanValue_pass (fun c hc => ?_) hrest
    rw [if_neg Bool.noConfusion]
    rw [hlit] at hc ⊢
    split at hc
    · rename_i hv
      rw [if_pos hv]
      refine ⟨?_, .inr rfl⟩
      rcases List.mem_cons.mp hc with rfl | hc
      · decide
      · exact digit_ne_blank (hds.digit hc)
    · exact ⟨digit_ne_blank (hds.digit hc), .inl (isDigit_of_digitVal (hds.digit hc))⟩
  unfold parseValueAt
  rw [if_neg hlen]
  dsimp only
  simp only [htake, if_false, decide_false, hscan, Run.ok_bind]
  rw [if_neg Bool.noConfusion, hdrop]
  simp

theorem parseValueAt_hex (hdrop : line.drop start = '0' :: 'x' :: ds ++ rest) (hds : Digits 16 ds n)
    (hrest : rest.head?.all (· = ' ')) : parseValueAt fl cfg use check line start =
      .ok ⟨parseNumber fl use.type 16 ds, start + 2 + ds.length + 1, check, false, none⟩ := by
  have hlen : ¬ line.length < start := by
    intro h
    rw [List.drop_eq_nil_of_le (by omega)] at hdrop
    cases hdrop
  have hdrop' : line.drop (start + 2) = ds ++ rest := by
    rw [← List.drop_drop, hdrop]
    rfl
  have hscan : ∀ neg, scanValue use true neg (start + 2) false (ds ++ rest) =
      .ok (start + 2 + ds.length, false) := fun neg =>
    scanValue_pass (fun c hc => ⟨digit_ne_blank (hds.digit hc), hds.digit hc⟩) hrest
  have htake : (line.drop start).take 2 = "0x".toList := by
    rw [hdrop]
    rfl
  unfold parseValueAt
  rw [if_neg hlen]
  dsimp only
  simp only [htake, if_true, decide_true, hdrop', hscan, Run.ok_bind]
  rw [if_neg Bool.noConfusion]
  simp

/-- A literal starts with a digit or a sign. -/
theorem Literal.Text.head {l : Literal} (h : l.Text lit) :
    ∃ c u, lit = c :: u ∧ (c = '-' ∨ c.isDigit) := by
  cases l with
  | dec v =>
    obtain ⟨ds, hds, rfl⟩ := h
    split
    · exact ⟨'-', ds, rfl, .inl rfl⟩
    · cases ds with
      | nil => exact absurd rfl hds.1
      | cons c ds => exact ⟨c, ds, rfl, .inr (isDigit_of_digitVal (hds.digit (by simp)))⟩
  | hex b =>
    obtain ⟨ds, -, rfl⟩ := h
    exact ⟨'0', 'x' :: ds, rfl, .inr (by decide)⟩

/-- The comparison in front of a literal. -/
theorem parseCompare_lit {l : Literal} {cmp : Str} (hat : LitAt use (line.drop start) cmp lit)
    (hlit : l.Text lit) :
    ∃ check, parseCompare use line start = .ok (.value check (start + cmp.length)) := by
  obtain ⟨c, u, rfl, hc⟩ := hlit.head
  obtain ⟨rest, hdrop, hat⟩ := hat
  have hlen : (line.drop start).length = line.length - start := List.length_drop
  have hne : ∀ x : Char, x.isDigit = false → x ≠ '-' → c ≠ x := by
    rintro x hx hx' rfl
    rcases hc with hc | hc
    · exact hx' hc
    · simp [hx] at hc
  have hl := hne 'l' (by decide) (by decide)
  have hg := hne 'g' (by decide) (by decide)
  have he := hne 'e' (by decide) (by decide)
  have hh := hne 'h' (by decide) (by decide)
  cases use with
  | plain => exact hat.elim
  | wish type =>
    obtain ⟨hcmp, hrest⟩ := hat
    obtain ⟨rest', rfl⟩ : ∃ rest', rest = ' ' :: rest' := by
      cases rest with
      | nil => cases hrest
      | cons x rest' => exact ⟨rest', by rw [Option.some.inj hrest]⟩
    have hlen' : ¬ line.length < start + 2 := by
      rw [hdrop] at hlen
      simp only [List.length_append, List.length_cons] at hlen
      omega
    simp only [List.mem_cons, List.not_mem_nil, or_false] at hcmp
    unfold parseCompare
    simp only [if_neg hlen', hdrop]
    rcases hcmp with rfl | rfl | rfl
    · simp [hl, hg, he]
    · exact ⟨.lt, rfl⟩
    · exact ⟨.gt, rfl⟩
  | check type i =>
    obtain ⟨hcmp, -⟩ := hat
    have hlen' : ¬ line.length < start + 2 := by
      have : cmp.length = 2 := by
        simp only [List.mem_cons, List.not_mem_nil, or_false] at hcmp
        rcases hcmp with rfl | rfl | rfl <;> rfl
      rw [hdrop] at hlen
      simp only [List.length_append, List.length_cons, this] at hlen
      omega
    simp only [List.mem_cons, List.not_mem_nil, or_false] at hcmp
    unfold parseCompare
    simp only [if_neg hlen', ← List.drop_drop, hdrop]
    rcases hcmp with rfl | rfl | rfl
    · exact ⟨.lt, rfl⟩
    · exact ⟨.gt, rfl⟩
    · refine ⟨.eq, ?_⟩
      simp [hh]

end Scan

/-! ## Numbers of a type -/

section Number

variable {fl : FloatLib} {type : VType} {lit ds : Str} {v : Int} {n w : Nat} {sg : Bool}

/-- An integer type. -/
structure VType.Integer (type : VType) (sg : Bool) (w : Nat) : Prop where
  isFloat : type.isFloat = false
  isSigned : type.isSigned = sg
  size : type.size = w
  width : w ∈ [8, 16, 32, 64]

theorem parseNumber_int (h : type.Integer sg w) (base : Nat) (text : Str) :
    parseNumber fl type base text =
      Value.store w 0 (if sg then strtol base text else strtoul base text) := by
  have hw := h.width
  have hsize : (if type.size ∈ [64, 32, 16] then type.size else 8) = w := by
    rw [h.size]
    simp only [List.mem_cons, List.not_mem_nil, or_false] at hw ⊢
    split <;> omega
  unfold parseNumber
  rw [h.isFloat, if_neg Bool.noConfusion, hsize, h.isSigned]

theorem width_le (h : w ∈ [8, 16, 32, 64]) : w ≤ 64 := by
  simp only [List.mem_cons, List.not_mem_nil, or_false] at h
  omega

/-- Decimal literals are exact. -/
theorem read_dec (h : type.Integer sg w) (hlit : (Literal.dec v).Text lit)
    (hr : (Literal.dec v).InRange sg w) :
    (Literal.dec v).Read sg w (parseNumber fl type 10 lit) := by
  obtain ⟨ds, hds, hlit⟩ := hlit
  have hw := width_le h.width
  have hpow : 2 ^ w ≤ 2 ^ 64 := Nat.pow_le_pow_right (by decide) hw
  show Value.toInt sg w _ = v
  rw [parseNumber_int h, toInt_store hw]
  cases sg with
  | true =>
    have hr : -2 ^ (w - 1) ≤ v ∧ v < 2 ^ (w - 1) := hr
    have hpow' : (2 : Int) ^ (w - 1) ≤ 2 ^ 63 := by
      exact_mod_cast Nat.pow_le_pow_right (show 0 < 2 by decide) (show w - 1 ≤ 63 by omega)
    have hval : strtol 10 lit = BitVec.ofInt 64 v := by
      rw [hlit]
      split
      · rw [strtol_neg_digits hds (by decide), toLong_true (by omega)]
        congr 1
        omega
      · rw [strtol_digits hds (by decide), toLong_false (by omega)]
        congr 1
        omega
    rw [if_pos rfl, hval, toInt_ofInt_signed h.width hr]
  | false =>
    have hr : 0 ≤ v ∧ v < 2 ^ w := hr
    have hn : v.natAbs < 2 ^ w := by
      zify
      rw [abs_of_nonneg hr.1]
      exact hr.2
    rw [if_neg Bool.noConfusion, hlit, if_neg (by omega), strtoul_digits hds (by decide),
      toULong_false (by omega), Value.toInt, if_neg Bool.noConfusion, toNat_setWidth_ofNat hw hn]
    omega

/-- Bit patterns are exact, apart from the upper half of a signed type of 64 bits. -/
theorem read_hex (h : type.Integer sg w) (hds : Digits 16 ds n) (hr : n < 2 ^ w) :
    (Literal.hex n).Read sg w (parseNumber fl type 16 ds) ↔
      ¬ (sg = true ∧ w = 64 ∧ 2 ^ 63 ≤ n) := by
  have hw := width_le h.width
  have hpow : 2 ^ w ≤ 2 ^ 64 := Nat.pow_le_pow_right (by decide) hw
  show (BitVec.setWidth w _).toNat = n ↔ _
  rw [parseNumber_int h, setWidth_store hw]
  cases sg with
  | false =>
    rw [if_neg Bool.noConfusion, strtoul_digits hds (by decide), toULong_false (by omega),
      toNat_setWidth_ofNat hw hr]
    simp
  | true =>
    rw [if_pos rfl, strtol_digits hds (by decide)]
    unfold toLong
    rw [if_neg Bool.noConfusion]
    by_cases hn : 2 ^ 63 ≤ n
    · have h64 : w = 64 := by
        have hmem := h.width
        simp only [List.mem_cons, List.not_mem_nil, or_false] at hmem
        rcases hmem with rfl | rfl | rfl | rfl
        · omega
        · omega
        · omega
        · rfl
      subst h64
      rw [if_pos hn, toNat_setWidth_ofNat hw (by decide)]
      exact iff_of_false (by omega) (not_not.mpr ⟨rfl, rfl, hn⟩)
    · rw [if_neg hn, toNat_setWidth_ofNat hw hr]
      exact iff_of_true rfl fun h => hn h.2.2

end Number

/-- **Literals are read exactly**, apart from bit patterns of the upper half of `i64`. -/
theorem literal_iff (fl : FloatLib) (cfg : List CfgEntry) (use : ValueUse) (line cmp lit : Str)
    (start : Nat) (sg : Bool) (w : Nat) (l : Literal) (ht : use.type.Integer sg w)
    (hlit : l.Text lit) (hr : l.InRange sg w) (hat : LitAt use (line.drop start) cmp lit) :
    (∃ v, parseValue fl cfg use line start = .ok v ∧ v.dynval = none ∧
        v.start = start + cmp.length + lit.length + 1 ∧ l.Read sg w v.value) ↔
      ¬ (sg = true ∧ w = 64 ∧ ∃ b, l = .hex b ∧ 2 ^ 63 ≤ b) := by
  obtain ⟨check, hcmp⟩ := parseCompare_lit hat hlit
  obtain ⟨rest, hdrop, hat⟩ := hat
  have hrest : rest.head?.all (· = ' ') := by
    cases use with
    | plain => exact hat.elim
    | wish type => rw [hat.2]; rfl
    | check type i => exact hat.2
  have hdrop' : line.drop (start + cmp.length) = lit ++ rest := by
    rw [← List.drop_drop, hdrop, List.append_assoc, List.drop_left]
  have hparse : parseValue fl cfg use line start =
      parseValueAt fl cfg use check line (start + cmp.length) := by
    unfold parseValue
    rw [hcmp]
    rfl
  rw [hparse]
  cases l with
  | dec v =>
    refine iff_of_true ?_ fun ⟨_, _, _, hb, _⟩ => (nomatch hb)
    exact ⟨_, parseValueAt_dec hdrop' hlit hrest, rfl, rfl, read_dec ht hlit hr⟩
  | hex b =>
    obtain ⟨ds, hds, rfl⟩ := hlit
    have hread : (Literal.hex b).Read sg w (parseNumber fl use.type 16 ds) ↔
      ¬ (sg = true ∧ w = 64 ∧ 2 ^ 63 ≤ b) := read_hex ht hds hr
    rw [parseValueAt_hex hdrop' hds hrest]
    constructor
    · rintro ⟨v, hv, -, -, hread'⟩ ⟨hsg, hw, b', hb', hle⟩
      cases hv
      cases hb'
      exact hread.mp hread' ⟨hsg, hw, hle⟩
    · intro h
      refine ⟨_, rfl, rfl, ?_, hread.mpr fun ⟨hsg, hw, hle⟩ => h ⟨hsg, hw, b, rfl, hle⟩⟩
      simp only [List.length_cons]
      omega

/-- A signed type of 64 bits. -/
def VType.i64 : VType := { VType.zero with isSigned := true, size := 64 }

theorem VType.i64_int : VType.i64.Integer true 64 := ⟨rfl, rfl, rfl, by decide⟩

def minLine : Str := "g -9223372036854775808 a a".toList

theorem literal_example : ∃ v,
    parseValue CfgReader.noFloats [] (.wish VType.i64) minLine 0 = .ok v ∧ v.dynval = none ∧
      v.start = 23 ∧ v.value.toInt true 64 = -9223372036854775808 :=
  (literal_iff CfgReader.noFloats [] (.wish VType.i64) minLine "g ".toList
    "-9223372036854775808".toList 0 true 64 (.dec (-9223372036854775808)) VType.i64_int
    ⟨"9223372036854775808".toList, by decide, rfl⟩ (by decide)
    ⟨" a a".toList, by decide, by decide, by decide⟩).mpr fun ⟨_, _, _, hb, _⟩ => (nomatch hb)

/-- All bits are set. -/
def onesLine : Str := "0xffffffffffffffff a a".toList

theorem literal_not : ¬ ∀ (fl : FloatLib) (cfg : List CfgEntry) (use : ValueUse) (line cmp lit : Str)
    (start : Nat) (sg : Bool) (w : Nat) (l : Literal), use.type.Integer sg w → l.Text lit →
    l.InRange sg w → LitAt use (line.drop start) cmp lit →
    ∃ v, parseValue fl cfg use line start = .ok v ∧ l.Read sg w v.value := by
  intro hall
  obtain ⟨v, hv, hread⟩ := hall CfgReader.noFloats [] (.wish VType.i64) onesLine []
    "0xffffffffffffffff".toList 0 true 64 (.hex (2 ^ 64 - 1)) VType.i64_int
    ⟨"ffffffffffffffff".toList, by decide, rfl⟩ (by decide)
    ⟨" a a".toList, by decide, by decide, by decide⟩
  have hval : (parseValue CfgReader.noFloats [] (.wish VType.i64) onesLine 0).map (·.value) =
      .ok (BitVec.ofNat 64 (2 ^ 63 - 1)) := by decide +kernel
  rw [hv] at hval
  have hval : v.value = BitVec.ofNat 64 (2 ^ 63 - 1) := Except.ok.inj hval
  have hread : (v.value.setWidth 64).toNat = 2 ^ 64 - 1 := hread
  rw [hval] at hread
  exact absurd hread (by decide)

end UgTrain
