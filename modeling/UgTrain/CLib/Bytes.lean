import UgTrain.CLib.Str

/-!
# Bytes in memory

A memory gives a byte for each address of 64 bits; addresses wrap around. `rangeBytes` is the content
of a range, `put` writes one. A range of at most `2 ^ 64` bytes has no byte twice, so that writes
behind each other are one write (`put_put`). The addresses of a range are its `window`.
-/

namespace CLib

section Bytes

variable {α : Type*}

/-- The bytes at `addr`. -/
def rangeBytes (mem : BitVec 64 → α) (addr : BitVec 64) (n : Nat) : List α :=
  (List.range n).map fun i => mem (addr + BitVec.ofNat 64 i)

/-- The memory with `data` at `addr`. -/
def put (mem : BitVec 64 → α) (addr : BitVec 64) (data : List α) : BitVec 64 → α :=
  fun a => data.getD (a - addr).toNat (mem a)

/-- `memcpy(&buf[i], bs, ..)` -/
def splice (buf : List α) (i : Nat) (bs : List α) : List α :=
  buf.take i ++ bs ++ buf.drop (i + bs.length)

variable {mem : BitVec 64 → α} {addr a : BitVec 64} {data d e bs t : List α} {n i : Nat}

@[simp] theorem length_rangeBytes : (rangeBytes mem addr n).length = n := by simp [rangeBytes]

theorem rangeBytes_add (n m : Nat) : rangeBytes mem addr (n + m) =
    rangeBytes mem addr n ++ rangeBytes mem (addr + BitVec.ofNat 64 n) m := by
  simp only [rangeBytes, List.range_add, List.map_append, List.map_map]
  congr 1
  refine List.map_congr_left fun i _ => ?_
  rw [Function.comp_apply, BitVec.ofNat_add, BitVec.add_assoc]

theorem take_rangeBytes {k : Nat} (h : k ≤ n) :
    (rangeBytes mem addr n).take k = rangeBytes mem addr k := by
  obtain ⟨m, rfl⟩ := Nat.exists_eq_add_of_le h
  rw [rangeBytes_add, List.take_left' length_rangeBytes]

theorem drop_rangeBytes {k : Nat} (h : k ≤ n) :
    (rangeBytes mem addr n).drop k = rangeBytes mem (addr + BitVec.ofNat 64 k) (n - k) := by
  obtain ⟨m, rfl⟩ := Nat.exists_eq_add_of_le h
  rw [rangeBytes_add, List.drop_left' length_rangeBytes, Nat.add_sub_cancel_left]

theorem put_nil : put mem addr [] = mem := rfl

theorem sub_toNat (hn : n < 2 ^ 64) : (a - (addr + BitVec.ofNat 64 n)).toNat =
    if n ≤ (a - addr).toNat then (a - addr).toNat - n else (a - addr).toNat + 2 ^ 64 - n := by
  have hlt := (a - addr).isLt
  rw [sub_add_eq_sub_sub, BitVec.toNat_sub, BitVec.toNat_ofNat, Nat.mod_eq_of_lt hn]
  split
  · rw [show 2 ^ 64 - n + (a - addr).toNat = (a - addr).toNat - n + 2 ^ 64 by omega,
      Nat.add_mod_right]
    exact Nat.mod_eq_of_lt (by omega)
  · rw [Nat.mod_eq_of_lt (by omega)]
    omega

/-- A write behind a write. -/
theorem put_put (mem : BitVec 64 → α) (addr : BitVec 64)
    (hlen : d.length + e.length ≤ 2 ^ 64) (hd : d.length < 2 ^ 64) :
    put (put mem addr d) (addr + BitVec.ofNat 64 d.length) e = put mem addr (d ++ e) := by
  funext a
  simp only [put]
  rw [sub_toNat hd]
  split
  · rename_i hle
    rw [List.getD_append_right _ _ _ _ hle, List.getD_eq_default d _ hle]
  · rename_i hlt
    rw [List.getD_append _ _ _ _ (by omega), List.getD_eq_default e _ (by omega)]

theorem put_at (hi : i < d.length) (hlen : d.length ≤ 2 ^ 64) :
    put mem addr d (addr + BitVec.ofNat 64 i) = d[i] := by
  have hsub : (addr + BitVec.ofNat 64 i - addr).toNat = i := by
    rw [BitVec.add_comm, BitVec.add_sub_cancel, BitVec.toNat_ofNat, Nat.mod_eq_of_lt (by omega)]
  rw [put, hsub, List.getD_eq_getElem _ _ hi]

/-- What was written is read. -/
theorem rangeBytes_put (mem : BitVec 64 → α) (addr : BitVec 64) (hlen : d.length ≤ 2 ^ 64) :
    rangeBytes (put mem addr d) addr d.length = d := by
  refine List.ext_getElem length_rangeBytes fun i hi hi' => ?_
  simp only [rangeBytes, List.getElem_map, List.getElem_range]
  exact put_at hi' hlen

/-- Writing what is there. -/
theorem put_rangeBytes : put mem addr (rangeBytes mem addr n) = mem := by
  funext a
  simp only [put, rangeBytes]
  by_cases h : (a - addr).toNat < n
  · rw [List.getD_eq_getElem _ _ (by simpa using h), List.getElem_map, List.getElem_range,
      BitVec.ofNat_toNat, BitVec.setWidth_eq, add_sub_cancel]
  · rw [List.getD_eq_default _ _ (by simpa using h)]

theorem put_eq_self_iff (hlen : d.length ≤ 2 ^ 64) :
    put mem addr d = mem ↔ rangeBytes mem addr d.length = d := by
  constructor
  · intro h
    have hread := rangeBytes_put mem addr hlen
    rwa [h] at hread
  · intro h
    rw [← h]
    exact put_rangeBytes

theorem rangeBytes_put_behind (hlen : d.length + n ≤ 2 ^ 64) :
    rangeBytes (put mem addr d) (addr + BitVec.ofNat 64 d.length) n =
      rangeBytes mem (addr + BitVec.ofNat 64 d.length) n := by
  refine List.map_congr_left fun i hi => ?_
  have hi := List.mem_range.mp hi
  rw [BitVec.add_assoc, ← BitVec.ofNat_add, put]
  have hsub : (addr + BitVec.ofNat 64 (d.length + i) - addr).toNat = d.length + i := by
    rw [BitVec.add_comm, BitVec.add_sub_cancel, BitVec.toNat_ofNat, Nat.mod_eq_of_lt (by omega)]
  rw [hsub, List.getD_eq_default _ _ (by omega)]

/-- A longer write does the same as a shorter one if the bytes behind are there already. -/
theorem put_append_eq_iff (hlen : d.length + e.length ≤ 2 ^ 64) (hd : d.length < 2 ^ 64) :
    put mem addr (d ++ e) = put mem addr d ↔
      rangeBytes mem (addr + BitVec.ofNat 64 d.length) e.length = e := by
  rw [← put_put mem addr hlen hd, put_eq_self_iff (by omega), rangeBytes_put_behind hlen]

/-- A list in which a part is exchanged. -/
theorem getElem?_splice (hn : bs.length = n) (h : i + n ≤ d.length) (k : Nat) :
    (d.take i ++ bs ++ d.drop (i + n))[k]? = if i ≤ k ∧ k < i + n then bs[k - i]? else d[k]? := by
  simp only [List.getElem?_append, List.length_append, List.length_take,
    Nat.min_eq_left (by omega : i ≤ d.length), List.getElem?_take, List.getElem?_drop]
  split_ifs <;> first | rfl | omega | (congr 1; omega)

/-! ## Windows -/

/-- The addresses of `n` bytes. -/
def window (n : Nat) (addr : BitVec 64) : Set (BitVec 64) := {a | (a - addr).toNat < n}

theorem getD_rangeBytes (ha : a ∈ window n addr) (x : α) :
    (rangeBytes mem addr n).getD (a - addr).toNat x = mem a := by
  have hlt : (a - addr).toNat < n := ha
  have hadd : addr + BitVec.ofNat 64 (a - addr).toNat = a := by
    rw [BitVec.ofNat_toNat, BitVec.setWidth_eq]
    exact add_sub_cancel addr a
  rw [rangeBytes, List.getD_eq_getElem?_getD, List.getElem?_map, List.getElem?_range hlt]
  exact congrArg mem hadd

theorem put_of_not_mem (ha : a ∉ window data.length addr) : put mem addr data a = mem a := by
  have hle : data.length ≤ (a - addr).toNat := by
    have hno : ¬ (a - addr).toNat < data.length := ha
    omega
  rw [put, List.getD_eq_getElem?_getD, List.getElem?_eq_none hle]
  rfl

theorem put_of_mem (ha : a ∈ window data.length addr) (x : α) :
    put mem addr data a = data.getD (a - addr).toNat x := by
  have hlt : (a - addr).toNat < data.length := ha
  rw [put, List.getD_eq_getElem?_getD, List.getD_eq_getElem?_getD, List.getElem?_eq_getElem hlt]
  rfl

/-- A part of a window. -/
theorem mem_window_add {o k : Nat} {off : BitVec 64} (hoff : off.toNat = o) (ho : o + k ≤ n)
    (hn : n ≤ 2 ^ 64) (ha : a ∈ window k (addr + off)) :
    (a - addr).toNat = o + (a - (addr + off)).toNat ∧ a ∈ window n addr := by
  have hlt : (a - (addr + off)).toNat < k := ha
  have hsum : a - addr = off + (a - (addr + off)) := by
    rw [← sub_sub]
    exact (add_sub_cancel off (a - addr)).symm
  have heq : (a - addr).toNat = o + (a - (addr + off)).toNat := by
    rw [hsum, BitVec.toNat_add, hoff, Nat.mod_eq_of_lt (by omega)]
  refine ⟨heq, ?_⟩
  show (a - addr).toNat < n
  omega

theorem mem_window_of_add {off : BitVec 64} (h₁ : off.toNat ≤ (a - addr).toNat)
    (h₂ : (a - addr).toNat < off.toNat + n) : a ∈ window n (addr + off) := by
  have hsub : (a - (addr + off)).toNat = (a - addr).toNat - off.toNat := by
    rw [← sub_sub]
    exact BitVec.toNat_sub_of_le (BitVec.le_def.mpr h₁)
  show (a - (addr + off)).toNat < n
  omega

theorem disjoint_window {x y : BitVec 64} (h₁ : n ≤ (x - y).toNat) (h₂ : n ≤ (y - x).toNat) :
    Disjoint (window n x) (window n y) := by
  refine Set.disjoint_left.mpr fun a hx hy => ?_
  have hx : (a - x).toNat < n := hx
  have hy : (a - y).toNat < n := hy
  rcases Nat.le_total (a - x).toNat (a - y).toNat with hle | hle
  · have hsub : x - y = (a - y) - (a - x) := by rw [sub_sub_sub_cancel_left]
    rw [hsub, BitVec.toNat_sub_of_le (BitVec.le_def.mpr hle)] at h₁
    omega
  · have hsub : y - x = (a - x) - (a - y) := by rw [sub_sub_sub_cancel_left]
    rw [hsub, BitVec.toNat_sub_of_le (BitVec.le_def.mpr hle)] at h₂
    omega

end Bytes

end CLib
