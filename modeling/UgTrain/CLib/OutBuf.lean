import UgTrain.CLib.Str

/-!
# Printing behind what was printed: `pos += snprintf(buf + pos, sizeof(buf) - pos, ..)`

The counter has 32 bits, with or without a sign, and is widened for `sizeof(buf) - pos`. `snprintf`
returns the length of the text without the cut, so that the counter may leave the buffer: then the
next difference wraps around, and `snprintf` writes behind the end (`print_error`).

`OutBuf` keeps the counter of each call. `Fits` is about the lengths of the texts alone: `printAll`
stays in the buffer exactly if they fit (`printAll_ok`, `printAll_error`).
-/

namespace CLib

/-- What `snprintf` returns for the text `s`: `-1` if its length is no `int`. -/
def snprintfRet (s : List Char) : Int := if s.length < 2 ^ 31 then s.length else -1

/-- A 32 bit counter as a `size_t`. -/
structure Widening where
  ext : BitVec 32 → BitVec 64
  small : ∀ p, p.toNat < 2 ^ 31 → (ext p).toNat = p.toNat
  large : ∀ p, 2 ^ 31 ≤ p.toNat → 2 ^ 31 ≤ (ext p).toNat

/-- From `u32`. -/
def Widening.unsigned : Widening where
  ext p := p.setWidth 64
  small p _ := by rw [BitVec.toNat_setWidth]; omega
  large p h := by rw [BitVec.toNat_setWidth]; omega

/-- From `i32`. -/
def Widening.signed : Widening where
  ext p := p.signExtend 64
  small p h := by
    have hmsb : p.msb = false := by rw [BitVec.msb_eq_false_iff_two_mul_lt]; omega
    rw [BitVec.signExtend_eq_setWidth_of_msb_false hmsb, BitVec.toNat_setWidth]
    omega
  large p h := by
    have hmsb : p.msb = true := by rw [BitVec.msb_eq_true_iff_two_mul_ge]; omega
    rw [BitVec.toNat_signExtend, hmsb, BitVec.toNat_setWidth]
    simp only [↓reduceIte]
    omega

/-- An output buffer, its counter, and the counter as it was before each call. -/
structure OutBuf where
  buf : List Char
  pos : BitVec 32
  calls : List (BitVec 64)
  deriving DecidableEq, Repr

/-- `sizeof(buf) - pos` -/
def room (size : Nat) (pos : BitVec 64) : BitVec 64 := BitVec.ofNat 64 size - pos

/-- One call; behind the end of the buffer it gives the calls so far. -/
def OutBuf.print (w : Widening) (b : OutBuf) (s : List Char) : Except (List (BitVec 64)) OutBuf :=
  let pos := w.ext b.pos
  let calls := b.calls ++ [pos]
  match snprintf b.buf pos.toNat (room b.buf.length pos).toNat s with
  | .ok buf => .ok ⟨buf, b.pos + BitVec.ofInt 32 (snprintfRet s), calls⟩
  | .error _ => .error calls

/-- One call for each text. -/
def OutBuf.printAll (w : Widening) (b : OutBuf) (ss : List (List Char)) :
    Except (List (BitVec 64)) OutBuf :=
  ss.foldlM (OutBuf.print w) b

/-- Each text starts in the buffer if the first one starts at `n`. -/
def Fits (size : Nat) : Int → List (List Char) → Prop
  | _, [] => True
  | n, s :: ss => (0 ≤ n ∧ n ≤ size) ∧ Fits size (n + snprintfRet s) ss

instance decidableFits (size : Nat) : ∀ (n : Int) (ss : List (List Char)), Decidable (Fits size n ss)
  | _, [] => .isTrue trivial
  | n, s :: ss =>
    have := decidableFits size (n + snprintfRet s) ss
    inferInstanceAs (Decidable ((0 ≤ n ∧ n ≤ size) ∧ Fits size (n + snprintfRet s) ss))

/-- The counter was in the buffer before each call, so that the difference is what is left. -/
def InRoom (size : Nat) (calls : List (BitVec 64)) : Prop :=
  ∀ pos ∈ calls, pos.toNat ≤ size ∧ (room size pos).toNat = size - pos.toNat

section Room

variable {size : Nat} {pos : BitVec 64} {s : List Char} {buf : List Char}

theorem room_toNat (hsize : size < 2 ^ 31) (h : pos.toNat ≤ size) :
    (room size pos).toNat = size - pos.toNat := by
  rw [room, BitVec.toNat_sub, BitVec.toNat_ofNat]
  omega

theorem snprintfBytes_length_le (n : Nat) (s : List Char) : (snprintfBytes n s).length ≤ n := by
  unfold snprintfBytes
  split
  · exact Nat.zero_le _
  · rw [List.length_append, List.length_take, List.length_singleton]
    omega

theorem snprintfBytes_ne_nil {n : Nat} (h : n ≠ 0) (s : List Char) :
    0 < (snprintfBytes n s).length := by
  rw [snprintfBytes, if_neg h, List.length_append, List.length_singleton]
  omega

theorem snprintf_room (hsize : buf.length < 2 ^ 31) (h : pos.toNat ≤ buf.length) :
    ∃ buf', snprintf buf pos.toNat (room buf.length pos).toNat s = .ok buf' ∧
      buf'.length = buf.length := by
  have hle : pos.toNat + (snprintfBytes (room buf.length pos).toNat s).length ≤ buf.length := by
    have := snprintfBytes_length_le (room buf.length pos).toNat s
    rw [room_toNat hsize h] at this ⊢
    omega
  refine ⟨_, by rw [snprintf, store, if_pos hle], ?_⟩
  simp only [List.length_append, List.length_take, List.length_drop]
  omega

/-- The difference wraps around. -/
theorem snprintf_no_room (hsize : buf.length < 2 ^ 31) (h : buf.length < pos.toNat) :
    snprintf buf pos.toNat (room buf.length pos).toNat s = .error .outOfBounds := by
  have hne : (room buf.length pos).toNat ≠ 0 := by
    rw [room, BitVec.toNat_sub, BitVec.toNat_ofNat]
    omega
  have hpos := snprintfBytes_ne_nil hne s
  rw [snprintf, store, if_neg (by omega)]

end Room

/-! ## The calls -/

/-- The counter, if it had no end. -/
structure OutBuf.At (size : Nat) (b : OutBuf) (n : Int) : Prop where
  length : b.buf.length = size
  pos : b.pos = BitVec.ofInt 32 n
  lower : -1 ≤ n
  upper : n < 2 ^ 32

section Calls

variable {w : Widening} {size : Nat} {b b' : OutBuf} {n : Int} {s : List Char} {ss : List (List Char)}

theorem snprintfRet_bounds (s : List Char) : -1 ≤ snprintfRet s ∧ snprintfRet s < 2 ^ 31 := by
  unfold snprintfRet
  split <;> omega

theorem OutBuf.At.ext_le_iff (hsize : size < 2 ^ 31) (h : b.At size n) :
    (w.ext b.pos).toNat ≤ size ↔ 0 ≤ n ∧ n ≤ size := by
  obtain ⟨-, hpos, hlower, hupper⟩ := h
  have hnat : b.pos.toNat = (n % 2 ^ 32).toNat := by rw [hpos, BitVec.toNat_ofInt]; rfl
  have hsmall := w.small b.pos
  have hlarge := w.large b.pos
  omega

theorem print_ok (hsize : size < 2 ^ 31) (h : b.At size n) (hcalls : InRoom size b.calls)
    (hn : 0 ≤ n ∧ n ≤ size) :
    ∃ b', b.print w s = .ok b' ∧ b'.At size (n + snprintfRet s) ∧ InRoom size b'.calls := by
  have hpos := (h.ext_le_iff (w := w) hsize).mpr hn
  obtain ⟨hlen, heq, -, -⟩ := h
  obtain ⟨buf', hbuf, hlen'⟩ := snprintf_room (s := s) (hlen ▸ hsize) (hlen ▸ hpos)
  have hret := snprintfRet_bounds s
  refine ⟨⟨buf', b.pos + BitVec.ofInt 32 (snprintfRet s), b.calls ++ [w.ext b.pos]⟩, ?_,
    ⟨hlen'.trans hlen, ?_, by omega, by omega⟩, fun pos hmem => ?_⟩
  · unfold OutBuf.print
    dsimp only
    rw [hbuf]
  · rw [heq, ← BitVec.ofInt_add]
  · rcases List.mem_append.mp hmem with hmem | hmem
    · exact hcalls pos hmem
    · obtain rfl := List.mem_singleton.mp hmem
      exact ⟨hpos, room_toNat hsize hpos⟩

theorem print_error (hsize : size < 2 ^ 31) (h : b.At size n) (hn : ¬ (0 ≤ n ∧ n ≤ size)) :
    b.print w s = .error (b.calls ++ [w.ext b.pos]) ∧ size < (w.ext b.pos).toNat := by
  have hpos := Nat.lt_of_not_le (mt (h.ext_le_iff (w := w) hsize).mp hn)
  refine ⟨?_, hpos⟩
  unfold OutBuf.print
  dsimp only
  rw [snprintf_no_room (h.length ▸ hsize) (h.length ▸ hpos)]

/-- Texts that fit are printed into the buffer. -/
theorem printAll_ok (hsize : size < 2 ^ 31) (h : b.At size n) (hcalls : InRoom size b.calls)
    (hfits : Fits size n ss) :
    ∃ b', b.printAll w ss = .ok b' ∧ b'.At size (n + (ss.map snprintfRet).sum) ∧
      InRoom size b'.calls := by
  induction ss generalizing b n with
  | nil => exact ⟨b, rfl, by simpa using h, hcalls⟩
  | cons s ss ih =>
    obtain ⟨b₁, hprint, hat, hcalls₁⟩ := print_ok (s := s) (w := w) hsize h hcalls hfits.1
    obtain ⟨b', hb', hat', hroom'⟩ := ih hat hcalls₁ hfits.2
    refine ⟨b', ?_, ?_, hroom'⟩
    · rw [OutBuf.printAll, List.foldlM_cons, hprint]
      exact hb'
    · rw [List.map_cons, List.sum_cons, ← Int.add_assoc]
      exact hat'

/-- Texts that do not fit leave the buffer. -/
theorem printAll_error (hsize : size < 2 ^ 31) (h : b.At size n) (hcalls : InRoom size b.calls)
    (hfits : ¬ Fits size n ss) :
    ∃ calls, b.printAll w ss = .error calls ∧ ¬ InRoom size calls := by
  induction ss generalizing b n with
  | nil => exact absurd trivial hfits
  | cons s ss ih =>
    by_cases hn : 0 ≤ n ∧ n ≤ size
    · obtain ⟨b₁, hprint, hat, hcalls₁⟩ := print_ok (s := s) (w := w) hsize h hcalls hn
      obtain ⟨calls, hall, hnot⟩ := ih hat hcalls₁ fun hss => hfits ⟨hn, hss⟩
      refine ⟨calls, ?_, hnot⟩
      rw [OutBuf.printAll, List.foldlM_cons, hprint]
      exact hall
    · obtain ⟨hprint, hlt⟩ := print_error (s := s) (w := w) hsize h hn
      refine ⟨b.calls ++ [w.ext b.pos], ?_, fun hroom =>
        absurd (hroom _ List.mem_concat_self).1 (Nat.not_le.mpr hlt)⟩
      rw [OutBuf.printAll, List.foldlM_cons, hprint]
      rfl

theorem fits_append {ss' : List (List Char)} :
    Fits size n (ss ++ ss') ↔ Fits size n ss ∧ Fits size (n + (ss.map snprintfRet).sum) ss' := by
  induction ss generalizing n with
  | nil => simp [Fits]
  | cons s ss ih =>
    simp only [List.cons_append, Fits, ih, List.map_cons, List.sum_cons, Int.add_assoc, and_assoc]

/-- The end of a text is in the rest of its buffer. -/
theorem padded_nul {t : List Char} (h : t.length < size) : padded size (t ++ [nul]) = padded size t := by
  rw [padded, padded, List.append_assoc, List.length_append, List.length_singleton,
    show size - t.length = size - (t.length + 1) + 1 by omega, List.replicate_succ]
  rfl

/-- A text is in the buffer as it is, if there is room for it and for the end. -/
theorem print_padded (hsize : size < 2 ^ 31) {t : List Char} {calls : List (BitVec 64)}
    (h : t.length + s.length < size) :
    OutBuf.print w ⟨padded size t, BitVec.ofNat 32 t.length, calls⟩ s
      = .ok ⟨padded size (t ++ s), BitVec.ofNat 32 (t ++ s).length,
        calls ++ [w.ext (BitVec.ofNat 32 t.length)]⟩ := by
  have hpos : (w.ext (BitVec.ofNat 32 t.length)).toNat = t.length := by
    have hnat : (BitVec.ofNat 32 t.length).toNat = t.length := by
      rw [BitVec.toNat_ofNat]
      omega
    rw [w.small _ (by omega), hnat]
  have hlen : (padded size t).length = size := padded_length (by omega)
  have hroom : (room size (w.ext (BitVec.ofNat 32 t.length))).toNat = size - t.length := by
    rw [room_toNat hsize (by omega), hpos]
  have hbytes : snprintfBytes (size - t.length) s = s ++ [nul] := by
    rw [snprintfBytes, if_neg (by omega), List.take_of_length_le (by omega)]
  have hstore : store (padded size t) t.length (s ++ [nul]) = .ok (padded size (t ++ s)) := by
    rw [store_padded (by rw [List.length_append, List.length_singleton]; omega),
      ← List.append_assoc, padded_nul (by rw [List.length_append]; omega)]
  unfold OutBuf.print
  dsimp only
  rw [hlen, hroom, hpos, snprintf, hbytes, hstore]
  dsimp only
  rw [List.length_append, snprintfRet, if_pos (by omega), BitVec.ofNat_add]
  rfl

theorem printAll_padded (w : Widening) (ss : List (List Char)) (calls : List (BitVec 64))
    (hsize : size < 2 ^ 31) {t : List Char}
    (h : t.length + ss.flatten.length < size) :
    ∃ calls', OutBuf.printAll w ⟨padded size t, BitVec.ofNat 32 t.length, calls⟩ ss
      = .ok ⟨padded size (t ++ ss.flatten), BitVec.ofNat 32 (t ++ ss.flatten).length, calls'⟩ := by
  induction ss generalizing t calls with
  | nil => exact ⟨calls, by rw [List.flatten_nil, List.append_nil]; rfl⟩
  | cons s ss ih =>
    rw [List.flatten_cons, List.length_append] at h
    obtain ⟨calls', hcalls'⟩ := ih (t := t ++ s) (calls ++ [w.ext (BitVec.ofNat 32 t.length)])
      (by rw [List.length_append]; omega)
    refine ⟨calls', ?_⟩
    rw [OutBuf.printAll, List.foldlM_cons, print_padded hsize (by omega), List.flatten_cons,
      ← List.append_assoc]
    exact hcalls'

end Calls

end CLib
