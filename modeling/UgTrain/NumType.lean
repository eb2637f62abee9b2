import UgTrain.CfgEntry

/-!
# Typed values (`value_t`, `struct type`)

`value_t` is a union: `NumType` is the member that a piece of code uses, and `Value.store` what an
assignment to a member does to the union. Comparisons and sums are those of the member's type.

* `char` is signed, the target is little endian.
* `VType.num` is the member that `change_memory` selects, `VType.checkNum` that of `check_memory`:
  a size that is not one of the usual ones is 8 bits for the one, and no check passes for the other.
-/

namespace UgTrain

/-- The number types of `value_t`; an integer has its signedness and its width. -/
inductive NumType where
  | f64
  | f32
  | int (isSigned : Bool) (w : Nat)
  deriving DecidableEq, Repr, Inhabited

def NumType.width : NumType → Nat
  | .f64 => 64
  | .f32 => 32
  | .int _ w => w

/-- The number that an integer member holds. -/
def Value.toInt (isSigned : Bool) (w : Nat) (v : Value) : Int :=
  if isSigned then (v.setWidth w).toInt else (v.setWidth w).toNat

def Value.f64 (v : Value) : Float := Float.ofBits (UInt64.ofBitVec v)

def Value.f32 (v : Value) : Float32 := Float32.ofBits (UInt32.ofBitVec (v.setWidth 32))

/-- Overwrites the lowest `w` bits. -/
def Value.store (w : Nat) (old new : Value) : Value :=
  (old >>> w) <<< w ||| (new.setWidth w).setWidth 64

namespace NumType

def lt : NumType → Value → Value → Bool
  | .f64, a, b => decide (Value.f64 a < Value.f64 b)
  | .f32, a, b => decide (Value.f32 a < Value.f32 b)
  | .int sg w, a, b => decide (Value.toInt sg w a < Value.toInt sg w b)

def eq : NumType → Value → Value → Bool
  | .f64, a, b => Value.f64 a == Value.f64 b
  | .f32, a, b => Value.f32 a == Value.f32 b
  | .int sg w, a, b => decide (Value.toInt sg w a = Value.toInt sg w b)

/-- Assignment to the member. -/
def store (t : NumType) (old new : Value) : Value := Value.store t.width old new

/-- The sum with an `i64`. -/
def add : NumType → Value → BitVec 64 → Value
  | .f64, v, d => (Value.f64 v + (Int64.ofBitVec d).toFloat).toBits.toBitVec
  | .f32, v, d => (Value.f32 v + (Int64.ofBitVec d).toFloat32).toBits.toBitVec.setWidth 64
  | .int _ _, v, d => v + d

end NumType

/-- `check_mem_val`: whether the check passes. -/
def NumType.checkMemVal (t : NumType) (readVal value : Value) : Check → Bool
  | .lt => t.lt readVal value
  | .gt => t.lt value readVal
  | .eq => t.eq readVal value
  | .off | .fin => true

def VType.num (type : VType) : Option NumType :=
  if type.isFloat then
    if type.size = 64 then some .f64 else if type.size = 32 then some .f32 else none
  else some (.int type.isSigned (if type.size ∈ [64, 32, 16] then type.size else 8))

/-- The number of bytes that `change_memory` stores: one for a width that is not a usual one. -/
def VType.stored (type : VType) : Nat := type.num.elim 0 fun t => t.width / 8

def VType.checkNum (type : VType) : Option NumType :=
  if type.isFloat then
    if type.size = 64 then some .f64 else if type.size = 32 then some .f32 else none
  else if type.size ∈ [64, 32, 16, 8] then some (.int type.isSigned type.size)
  else none

theorem VType.bytes_of_lt {type : VType} (h : type.size < 2 ^ 31) : type.bytes = type.size / 8 := by
  have hmod : type.size % 2 ^ 32 = type.size := Nat.mod_eq_of_lt (by omega)
  have hint : (BitVec.ofNat 32 type.size).toInt = type.size := by
    rw [BitVec.toInt_eq_toNat_of_lt (by rw [BitVec.toNat_ofNat, hmod]; omega), BitVec.toNat_ofNat, hmod]
  have hdiv : (type.size : Int).tdiv 8 = ((type.size / 8 : Nat) : Int) := rfl
  rw [VType.bytes, hint, hdiv, BitVec.ofInt_natCast, BitVec.toNat_ofNat]
  exact Nat.mod_eq_of_lt (by omega)

/-- The usual widths. -/
theorem VType.bytes_of_usual {type : VType} (h : type.size ∈ [8, 16, 32, 64]) :
    type.bytes = type.size / 8 := by
  refine bytes_of_lt ?_
  simp only [List.mem_cons, List.not_mem_nil, or_false] at h
  omega

/-! ## Bytes -/

/-- The lowest `n` bytes as they stand in memory. -/
def Value.bytes (n : Nat) (v : Value) : List UInt8 :=
  (List.range n).map fun i => UInt8.ofBitVec ((v >>> (8 * i)).setWidth 8)

def Value.ofBytes : List UInt8 → Value
  | [] => 0
  | b :: bs => Value.ofBytes bs <<< 8 ||| b.toBitVec.setWidth 64

@[simp] theorem length_bytes (n : Nat) (v : Value) : (v.bytes n).length = n := by
  simp [Value.bytes]

/-! ## Assignments to a member -/

section Store

variable {t : NumType} {old new v d : Value} {w : Nat}

theorem setWidth_store (hw : w ≤ 64) : (Value.store w old new).setWidth w = new.setWidth w := by
  refine BitVec.eq_of_getLsbD_eq fun i hi => ?_
  have h64 : i < 64 := by omega
  simp [Value.store, hi, h64]

/-- A value read as a member is what was last assigned to it. -/
theorem toInt_store {sg : Bool} (hw : w ≤ 64) :
    Value.toInt sg w (Value.store w old new) = Value.toInt sg w new := by
  simp [Value.toInt, setWidth_store hw]

theorem f64_store : Value.f64 (Value.store 64 old new) = Value.f64 new := by
  have h : (Value.store 64 old new).setWidth 64 = new.setWidth 64 := setWidth_store (le_refl 64)
  simp only [BitVec.setWidth_eq] at h
  rw [h]

theorem f32_store : Value.f32 (Value.store 32 old new) = Value.f32 new := by
  simp only [Value.f32, setWidth_store (show 32 ≤ 64 by decide)]

namespace NumType

theorem lt_store_right (hw : t.width ≤ 64) : t.lt v (t.store old new) = t.lt v new := by
  cases t with
  | f64 => simp only [lt, store, width, f64_store]
  | f32 => simp only [lt, store, width, f32_store]
  | int sg w => simp only [lt, store, width, toInt_store (show w ≤ 64 from hw)]

theorem lt_store_left (hw : t.width ≤ 64) : t.lt (t.store old new) v = t.lt new v := by
  cases t with
  | f64 => simp only [lt, store, width, f64_store]
  | f32 => simp only [lt, store, width, f32_store]
  | int sg w => simp only [lt, store, width, toInt_store (show w ≤ 64 from hw)]

theorem store_store (hw : t.width ≤ 64) : t.store v (t.store old new) = t.store v new := by
  simp only [store]
  rw [Value.store, setWidth_store hw, ← Value.store]

end NumType

theorem num_width_le {type : VType} (h : type.num = some t) : t.width ≤ 64 := by
  unfold VType.num at h
  split at h
  · split at h
    · cases h; simp [NumType.width]
    · split at h
      · cases h; simp [NumType.width]
      · cases h
  · cases h
    simp only [NumType.width]
    split
    · rename_i hm
      simp only [List.mem_cons, List.not_mem_nil, or_false] at hm
      omega
    · omega

end Store

end UgTrain
