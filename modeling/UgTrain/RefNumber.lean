import UgTrain.Freeze

/-!
# Numbers of references

A reference passes the eight bytes of a `value_t` on, and the entry reads them in its own type. The
referenced entry has only set the lowest ones of them: where the entry is wider, it also reads what
has been above them before (`Value.between`). `refNumber_iff` says when the number is the same.
-/

namespace UgTrain

open CLib

/-- The numbers of an integer type. -/
def InType (sg : Bool) (w : Nat) (x : Int) : Prop :=
  if sg then -2 ^ (w - 1) ≤ x ∧ x < 2 ^ (w - 1) else 0 ≤ x ∧ x < 2 ^ w

instance (sg : Bool) (w : Nat) (x : Int) : Decidable (InType sg w x) :=
  inferInstanceAs (Decidable
    (if sg then -2 ^ (w - 1) ≤ x ∧ x < 2 ^ (w - 1) else 0 ≤ x ∧ x < 2 ^ w))

/-- The bits of the union from `a` on that are below `b`. -/
def Value.between (a b : Nat) (v : Value) : Nat := v.toNat / 2 ^ a % 2 ^ (b - a)

/-- These bits continue the number `x`: zeros, or ones for a negative one. -/
def Value.Continues (a b : Nat) (v : Value) (x : Int) : Prop :=
  v.between a b = if 0 ≤ x then 0 else 2 ^ (b - a) - 1

instance (a b : Nat) (v : Value) (x : Int) : Decidable (v.Continues a b x) :=
  inferInstanceAs (Decidable (_ = _))

section Numbers

variable {sg sg' : Bool} {a b w : Nat} {v : Value} {x y : Int}

/-- The number of a member, up to multiples. -/
theorem toInt_modEq : Value.toInt sg w v ≡ v.toNat [ZMOD 2 ^ w] := by
  have hcast : (2 : Int) ^ w = ((2 ^ w : Nat) : Int) := by push_cast; rfl
  unfold Value.toInt Int.ModEq
  cases sg with
  | true =>
    rw [if_pos rfl, BitVec.toInt_eq_toNat_bmod, BitVec.toNat_setWidth, hcast, Int.bmod_emod]
    simp
  | false =>
    rw [if_neg Bool.noConfusion, BitVec.toNat_setWidth]
    simp

theorem inType_toInt : InType sg w (Value.toInt sg w v) := by
  unfold InType Value.toInt
  cases sg with
  | true =>
    rw [if_pos rfl, if_pos rfl]
    exact ⟨BitVec.le_toInt _, BitVec.toInt_lt⟩
  | false =>
    rw [if_neg Bool.noConfusion, if_neg Bool.noConfusion]
    refine ⟨Int.natCast_nonneg _, ?_⟩
    exact_mod_cast (v.setWidth w).isLt

/-- Numbers of a type that are the same up to multiples are equal. -/
theorem inType_unique (hw : 0 < w) (hx : InType sg w x) (hy : InType sg w y)
    (h : x ≡ y [ZMOD 2 ^ w]) : x = y := by
  have hpow : (2 : Int) ^ w = 2 * 2 ^ (w - 1) := by
    rw [← pow_succ', Nat.sub_add_cancel hw]
  have hlt : |x - y| < 2 ^ w := by
    unfold InType at hx hy
    rw [abs_lt]
    split at hx
    · rw [if_pos ‹_›] at hy
      constructor <;> linarith [hx.1, hx.2, hy.1, hy.2]
    · rw [if_neg ‹_›] at hy
      constructor <;> linarith [hx.1, hx.2, hy.1, hy.2]
  have hzero := Int.eq_zero_of_abs_lt_dvd h.symm.dvd hlt
  omega

/-- What is above the lowest bits. -/
theorem toNat_between (hab : a ≤ b) : v.toNat % 2 ^ b = v.toNat % 2 ^ a + 2 ^ a * v.between a b := by
  unfold Value.between
  rw [← Nat.mod_mul, ← pow_add, Nat.add_sub_cancel' hab]

theorem between_lt : v.between a b < 2 ^ (b - a) := Nat.mod_lt _ (Nat.two_pow_pos _)

/-- The number from the lowest bits. -/
theorem toInt_eq_mod (ha : 0 < a) : Value.toInt sg a v =
    (v.toNat % 2 ^ a : Nat) - if 0 ≤ Value.toInt sg a v then 0 else 2 ^ a := by
  have hpow : (2 : Int) ^ a = 2 * 2 ^ (a - 1) := by
    rw [← pow_succ', Nat.sub_add_cancel ha]
  have hpos : (0 : Int) < 2 ^ (a - 1) := by positivity
  have htype : InType sg a (Value.toInt sg a v) := inType_toInt
  have hmod : Value.toInt sg a v ≡ v.toNat [ZMOD 2 ^ a] := toInt_modEq
  have hr : ((v.toNat % 2 ^ a : Nat) : Int) ≡ v.toNat [ZMOD 2 ^ a] := by
    push_cast
    exact Int.mod_modEq _ _
  have hr' : InType false a (v.toNat % 2 ^ a : Nat) := by
    refine ⟨Int.natCast_nonneg _, ?_⟩
    exact_mod_cast Nat.mod_lt _ (Nat.two_pow_pos a)
  -- Both sides are numbers of the unsigned type after the sign is taken away.
  have hin : InType false a (Value.toInt sg a v + if 0 ≤ Value.toInt sg a v then 0 else 2 ^ a) := by
    unfold InType at htype ⊢
    rw [if_neg Bool.noConfusion]
    split <;> split at htype <;> constructor <;> linarith [htype.1, htype.2]
  have hadd : Value.toInt sg a v + (if 0 ≤ Value.toInt sg a v then 0 else 2 ^ a) ≡
      Value.toInt sg a v [ZMOD 2 ^ a] := by
    split
    · rw [add_zero]
    · exact Int.add_modEq_right
  have heq := inType_unique ha hin hr' (hadd.trans (hmod.trans hr.symm))
  linarith

/-- The number of the lower bits is that of more bits: a condition on the bits between. -/
theorem modEq_iff_dvd_between (ha : 0 < a) (hab : a ≤ b) :
    Value.toInt sg a v ≡ v.toNat [ZMOD 2 ^ b] ↔
      2 ^ (b - a) ∣ v.between a b + if 0 ≤ Value.toInt sg a v then 0 else 1 := by
  have hpos : (2 : Int) ^ a ≠ 0 := by positivity
  have hpow : (2 : Int) ^ b = 2 ^ a * 2 ^ (b - a) := by
    rw [← pow_add, Nat.add_sub_cancel' hab]
  have hn : (v.toNat : Int) ≡ (v.toNat % 2 ^ a : Nat) + 2 ^ a * v.between a b [ZMOD 2 ^ b] := by
    have heq : ((v.toNat % 2 ^ b : Nat) : Int) =
        (v.toNat % 2 ^ a : Nat) + 2 ^ a * v.between a b := by
      exact_mod_cast toNat_between hab
    rw [← heq]
    push_cast
    exact (Int.mod_modEq _ _).symm
  have hdiff : ((v.toNat % 2 ^ a : Nat) + 2 ^ a * v.between a b : Int) - Value.toInt sg a v =
      2 ^ a * ((v.between a b + if 0 ≤ Value.toInt sg a v then 0 else 1 : Nat) : Int) := by
    have hx : Value.toInt sg a v = _ := toInt_eq_mod ha
    split at hx <;> rename_i h0
    · rw [if_pos h0]
      push_cast at hx ⊢
      linarith
    · rw [if_neg h0]
      push_cast at hx ⊢
      linarith
  have hiff : Value.toInt sg a v ≡ v.toNat [ZMOD 2 ^ b] ↔
      Value.toInt sg a v ≡ (v.toNat % 2 ^ a : Nat) + 2 ^ a * v.between a b [ZMOD 2 ^ b] :=
    ⟨fun h => h.trans hn, fun h => h.trans hn.symm⟩
  rw [hiff, Int.modEq_iff_dvd, hdiff, hpow, mul_dvd_mul_iff_left hpos]
  exact_mod_cast Iff.rfl

/-- **Reading a number in another type** gives it if and only if no other bits are read, or these
continue it. -/
theorem toInt_eq_iff (ha : 0 < a) (hb : 0 < b) (h : InType sg' b (Value.toInt sg a v)) :
    Value.toInt sg' b v = Value.toInt sg a v ↔
      b ≤ a ∨ v.Continues a b (Value.toInt sg a v) := by
  have hiff : Value.toInt sg' b v = Value.toInt sg a v ↔
      Value.toInt sg a v ≡ v.toNat [ZMOD 2 ^ b] :=
    ⟨fun heq => heq ▸ toInt_modEq, fun hmod =>
      (inType_unique hb h inType_toInt (hmod.trans toInt_modEq.symm)).symm⟩
  rw [hiff]
  have hmod : Value.toInt sg a v ≡ v.toNat [ZMOD 2 ^ a] := toInt_modEq
  by_cases hle : b ≤ a
  · exact iff_of_true (hmod.of_dvd (pow_dvd_pow 2 hle)) (.inl hle)
  · have hab : a ≤ b := by omega
    rw [modEq_iff_dvd_between ha hab, Value.Continues, or_iff_right hle]
    have hk : v.between a b < 2 ^ (b - a) := between_lt
    split
    · rw [add_zero]
      exact ⟨fun hdvd => Nat.eq_zero_of_dvd_of_lt hdvd hk, fun h0 => h0 ▸ dvd_zero _⟩
    · refine ⟨fun hdvd => ?_, fun h1 => ?_⟩
      · have := Nat.le_of_dvd (Nat.succ_pos _) hdvd
        omega
      · rw [h1, Nat.sub_add_cancel (Nat.two_pow_pos _)]

end Numbers

/-! ## References -/

/-- The number of a value in an integer type. -/
def VType.number (type : VType) (v : Value) : Int := Value.toInt type.isSigned type.size v

/-- The type can hold the number. -/
def VType.Represents (type : VType) (x : Int) : Prop := InType type.isSigned type.size x

instance (type : VType) (x : Int) : Decidable (type.Represents x) :=
  inferInstanceAs (Decidable (InType _ _ x))

/-- The bits that the type reads above those of the referenced type continue the number. -/
def VType.Continued (type ref : VType) (v : Value) : Prop :=
  type.size ≤ ref.size ∨ v.Continues ref.size type.size (ref.number v)

section Reference

variable {s : ProcState} {cfgRef : Nat} {ref : CfgEntry} {type : VType} {v : Value}

theorem VType.IsInt.size_pos (h : type.IsInt) : 0 < type.size := by
  have := h.2
  simp only [List.mem_cons, List.not_mem_nil, or_false] at this
  omega

theorem number_eq_iff {t : VType} (ht : t.IsInt) (h : type.IsInt)
    (hx : type.Represents (t.number v)) : type.number v = t.number v ↔ type.Continued t v :=
  toInt_eq_iff ht.size_pos h.size_pos hx

/-- The wish value from a reference, before the constant is added. -/
theorem number_wish {en : CfgEntry} {old : Value} (h : en.type.IsInt) :
    en.type.number (Value.store en.type.size old (v + en.cfgRefAdd) - en.cfgRefAdd) =
      en.type.number v := by
  have hle := h.size_le
  have heq : (Value.store en.type.size old (v + en.cfgRefAdd) - en.cfgRefAdd).setWidth
      en.type.size = v.setWidth en.type.size := by
    rw [BitVec.sub_eq_add_neg, BitVec.setWidth_add _ _ hle, BitVec.setWidth_neg_of_le hle,
      setWidth_store hle, BitVec.setWidth_add _ _ hle, ← BitVec.sub_eq_add_neg,
      BitVec.add_sub_cancel]
  show Value.toInt _ _ _ = Value.toInt _ _ _
  simp only [Value.toInt, heq]

/-- **References preserve the number** if and only if the bits above those of the referenced entry
continue it, in the wish value and in the value that is checked. -/
theorem refNumber_iff (chunk : Nat) (_hr : s.opt.entries[cfgRef]? = some ref)
    (ht : ref.type.IsInt) (hv : handleCfgRef s.opt cfgRef = .ok (some v)) :
    (∀ (e : Nat) (en : CfgEntry) (readVal value : Value) (cstr : Option (List UInt8))
      (memOffs : Ptr) (slot : Option Nat), en.type.IsInt → en.dynval = .addr →
      en.cfgRef = some cfgRef → en.type.Represents (ref.type.number v) →
      ∃ wish, handleDynval (.int en.type.isSigned en.type.size) e en readVal value cstr memOffs
          slot s = .ok (wish, s) ∧
        (en.type.number (wish - en.cfgRefAdd) = ref.type.number v ↔
          en.type.Continued ref.type v)) ∧
    ∀ (dynmem : Option DynMemEntry) (memOffs : Ptr) (chk : CheckEntry) (buf : Value),
      chk.type.IsInt → chk.cfgRef = some cfgRef → chk.type.Represents (ref.type.number v) →
      ∃ chkBuf, checkValue chunk dynmem memOffs chk buf s = .ok (some chkBuf, s) ∧
        (chk.type.number chkBuf = ref.type.number v ↔ chk.type.Continued ref.type v) := by
  constructor
  · intro e en readVal value cstr memOffs slot hint hd hc hx
    refine ⟨Value.store en.type.size value (v + en.cfgRefAdd), ?_, ?_⟩
    · simp only [handleDynval, hd, hc, hv, Run.ok_bind]
      rfl
    · rw [number_wish hint]
      exact number_eq_iff ht hint hx
  · intro dynmem memOffs chk buf hint hc hx
    refine ⟨v, ?_, number_eq_iff ht hint hx⟩
    simp only [checkValue, hc, hv, Run.ok_bind]
    rfl

/-- Where a value has no bits above those of its type, only a negative number is not preserved. -/
theorem continued_iff_of_lt (h : v.toNat < 2 ^ ref.type.size) : type.Continued ref.type v ↔
    type.size ≤ ref.type.size ∨ 0 ≤ ref.type.number v := by
  unfold VType.Continued Value.Continues
  have hbetween : v.between ref.type.size type.size = 0 := by
    rw [Value.between, Nat.div_eq_of_lt h, Nat.zero_mod]
  rw [hbetween]
  by_cases hle : type.size ≤ ref.type.size
  · exact iff_of_true (.inl hle) (.inl hle)
  · have hpow : 2 ≤ 2 ^ (type.size - ref.type.size) := by
      calc 2 = 2 ^ 1 := rfl
        _ ≤ _ := Nat.pow_le_pow_right (by decide) (by omega)
    split <;> simp [hle] <;> omega

end Reference

/-! ## A signed byte -/

def VType.signedInt (size : Nat) : VType :=
  { (default : VType) with isSigned := true, size := size }

/-- An entry of one byte that was read from memory. -/
def CfgEntry.byteRead (v : Value) : CfgEntry := { (default : CfgEntry) with
  type := .signedInt 8
  vals := ⟨0, v, none, false, [], [], []⟩ }

/-- A wish value or a check of 32 bits that refers to it. -/
def CfgEntry.copyOf : CfgEntry := { (default : CfgEntry) with
  type := .signedInt 32
  dynval := .addr
  cfgRef := some 0 }

def CheckEntry.copyOf : CheckEntry := { (default : CheckEntry) with
  type := .signedInt 32
  cfgRef := some 0 }

def ProcState.byteRef (v : Value) : ProcState where
  opt :=
    { entries := [.byteRead v, .copyOf]
      dynmems := []
      ptrmems := []
      libs := []
      dumps := []
      caches := fun _ => []
      valOnStack := false
      stackEnd := 0
      codeOffs := 0 }
  target := ⟨fun _ => 5, fun _ _ => true, fun _ _ => true⟩
  buf := 0
  junk := 0
  events := []

theorem refNumber_example : ∃ wish,
    handleDynval (.int true 32) 1 .copyOf 0 0 none 0 none (.byteRef 100) =
      .ok (wish, .byteRef 100) ∧ Value.toInt true 32 (wish - CfgEntry.copyOf.cfgRefAdd) = 100 := by
  obtain ⟨hwish, -⟩ := refNumber_iff 16 (v := 100)
    (show (ProcState.byteRef 100).opt.entries[0]? = some (.byteRead 100) from rfl)
    ⟨rfl, show 8 ∈ [8, 16, 32, 64] by decide⟩ rfl
  obtain ⟨wish, heq, hiff⟩ := hwish 1 .copyOf 0 0 none 0 none
    ⟨rfl, show 32 ∈ [8, 16, 32, 64] by decide⟩ rfl rfl (by decide)
  exact ⟨wish, heq, hiff.mpr (.inr (by decide))⟩

/-- A byte of -1 is 255 in 32 bits. -/
theorem refNumber_not : ¬ ∀ (s : ProcState) (cfgRef : Nat) (ref : CfgEntry) (v : Value),
    s.opt.entries[cfgRef]? = some ref → ref.type.IsInt →
    handleCfgRef s.opt cfgRef = .ok (some v) →
    (∀ (e : Nat) (en : CfgEntry) (readVal value : Value) (cstr : Option (List UInt8))
      (memOffs : Ptr) (slot : Option Nat) (wish : Value) (s' : ProcState), en.type.IsInt →
      en.dynval = .addr → en.cfgRef = some cfgRef → en.type.Represents (ref.type.number v) →
      handleDynval (.int en.type.isSigned en.type.size) e en readVal value cstr memOffs slot s =
        .ok (wish, s') → en.type.number (wish - en.cfgRefAdd) = ref.type.number v) ∧
    ∀ (chunk : Nat) (dynmem : Option DynMemEntry) (memOffs : Ptr) (chk : CheckEntry)
      (buf chkBuf : Value) (s' : ProcState), chk.type.IsInt → chk.cfgRef = some cfgRef →
      chk.type.Represents (ref.type.number v) →
      checkValue chunk dynmem memOffs chk buf s = .ok (some chkBuf, s') →
      chk.type.number chkBuf = ref.type.number v := by
  intro hall
  obtain ⟨hwish, -⟩ := hall (.byteRef 0xff) 0 (.byteRead 0xff) 0xff rfl
    ⟨rfl, show 8 ∈ [8, 16, 32, 64] by decide⟩ rfl
  have hbad := hwish 1 .copyOf 0 0 none 0 none 0xff (.byteRef 0xff)
    ⟨rfl, show 32 ∈ [8, 16, 32, 64] by decide⟩ rfl rfl (by decide) rfl
  exact absurd hbad (by decide)

end UgTrain
