import Mathlib

/-!
# C strings and buffers

A buffer is a `List Char`, one character a byte; its length is the size of the allocation. A C
string in it ends at the first `nul` (or at the end of the buffer). A pointer into a buffer is
an index, and the string at a pointer is `buf.drop i`.

* `strchr`: the index of the first occurrence in the C string (`strchr_eq_some`,
  `strchr_eq_none`).
* `store`, `memmove`, `memset`, `snprintf`: the copying functions. They throw `Fault` where the C
  function would leave the buffer, so that a run without a fault is a run without such a write.
* `nul`-padded buffers (`padded`): a text and the unused rest of its buffer, all `nul`.
-/

namespace CLib

/-- The byte that ends a C string. -/
def nul : Char := '\x00'

/-- What a C function does without telling its caller. -/
inductive Fault where
  /-- An access outside of the buffer. -/
  | outOfBounds
  /-- A negative length, passed on as a `size_t`. -/
  | negativeLength
  /-- A null pointer followed. -/
  | nullPointer
  deriving DecidableEq, Repr

/-- The C string at the start of `s`, without its end. -/
def cstr (s : List Char) : List Char := s.takeWhile (· ≠ nul)

/-- `strchr`: the index of the first `c` in the C string at the start of `s`. -/
def strchr : List Char → Char → Option Nat
  | [], _ => none
  | x :: xs, c =>
    if x = c then some 0 else if x = nul then none else (strchr xs c).map (· + 1)

/-- `memcpy(buf + dst, s, n)` for the `n` bytes `s`. -/
def store (buf : List Char) (dst : Nat) (s : List Char) : Except Fault (List Char) :=
  if dst + s.length ≤ buf.length then
    .ok (buf.take dst ++ s ++ buf.drop (dst + s.length))
  else .error .outOfBounds

/-- `memmove(buf + dst, buf + src, n)`. -/
def memmove (buf : List Char) (dst src n : Nat) : Except Fault (List Char) :=
  if src + n ≤ buf.length then store buf dst ((buf.drop src).take n) else .error .outOfBounds

/-- `memset(buf + dst, 0, n)`. -/
def memset (buf : List Char) (dst n : Nat) : Except Fault (List Char) :=
  store buf dst (List.replicate n nul)

/-- The bytes that `snprintf(.., n, ..)` writes of the text `s`: at most `n - 1`, and the end. -/
def snprintfBytes (n : Nat) (s : List Char) : List Char :=
  if n = 0 then [] else s.take (n - 1) ++ [nul]

/-- `snprintf(buf + dst, n, ..)` for the text `s`; its return value is the length of `s`. -/
def snprintf (buf : List Char) (dst n : Nat) (s : List Char) : Except Fault (List Char) :=
  store buf dst (snprintfBytes n s)

/-! ## `strchr` -/

section Strchr

variable {s t : List Char} {c : Char} {i : Nat}

theorem strchr_eq_some (hc : c ≠ nul) :
    strchr s c = some i ↔ ∃ p r, s = p ++ c :: r ∧ p.length = i ∧ c ∉ p ∧ nul ∉ p := by
  induction s generalizing i with
  | nil => simp [strchr]
  | cons x xs ih =>
    simp only [strchr]
    split
    · rename_i h
      subst h
      constructor
      · intro h
        cases h
        exact ⟨[], xs, rfl, rfl, by simp, by simp⟩
      · rintro ⟨p, r, hs, rfl, hp, -⟩
        cases p with
        | nil => rfl
        | cons y ys => simp at hs; exact absurd (by simp [hs.1]) hp
    · rename_i h
      split
      · rename_i h0
        subst h0
        constructor
        · intro h; cases h
        · rintro ⟨p, r, hs, -, -, hp⟩
          cases p with
          | nil => simp at hs; exact absurd hs.1.symm hc
          | cons y ys => simp at hs; exact absurd (by simp [hs.1]) hp
      · rename_i h0
        rw [Option.map_eq_some_iff]
        constructor
        · rintro ⟨j, hj, rfl⟩
          obtain ⟨p, r, rfl, rfl, hp, hn⟩ := ih.mp hj
          refine ⟨x :: p, r, rfl, rfl, ?_, ?_⟩
          · simp only [List.mem_cons, not_or]; exact ⟨Ne.symm h, hp⟩
          · simp only [List.mem_cons, not_or]; exact ⟨Ne.symm h0, hn⟩
        · rintro ⟨p, r, hs, rfl, hp, hn⟩
          cases p with
          | nil => simp at hs; exact absurd hs.1 h
          | cons y ys =>
            simp only [List.cons_append, List.cons.injEq] at hs
            obtain ⟨rfl, rfl⟩ := hs
            simp only [List.mem_cons, not_or] at hp hn
            exact ⟨ys.length, ih.mpr ⟨ys, r, rfl, rfl, hp.2, hn.2⟩, rfl⟩

/-- The first `c` ends the part of the string before it. -/
theorem strchr_append_cons (p r : List Char) (hp : c ∉ p) (hn : nul ∉ p) (hc : c ≠ nul) :
    strchr (p ++ c :: r) c = some p.length :=
  (strchr_eq_some hc).mpr ⟨p, r, rfl, rfl, hp, hn⟩

theorem strchr_lt (h : strchr s c = some i) : i < s.length := by
  induction s generalizing i with
  | nil => simp [strchr] at h
  | cons x xs ih =>
    simp only [strchr] at h
    split at h
    · cases h; simp
    · split at h
      · cases h
      · obtain ⟨j, hj, rfl⟩ := Option.map_eq_some_iff.mp h
        have := ih hj
        simp; omega

theorem strchr_eq_none (hc : c ≠ nul) : strchr s c = none ↔ c ∉ cstr s := by
  induction s with
  | nil => simp [strchr, cstr]
  | cons x xs ih =>
    simp only [strchr, cstr, List.takeWhile_cons]
    by_cases hx : x = c
    · subst hx; simp [hc]
    · by_cases h0 : x = nul
      · subst h0; simp [hx]
      · simp only [hx, ↓reduceIte, h0, Option.map_eq_none_iff, ih, cstr]
        simp [Ne.symm hx, h0]

end Strchr

/-! ## C strings -/

theorem cstr_of_not_mem {s : List Char} (h : nul ∉ s) : cstr s = s := by
  unfold cstr
  rw [List.takeWhile_eq_self_iff]
  intro x hx
  have : x ≠ nul := fun e => h (e ▸ hx)
  simpa using this

theorem cstr_append_nul {s t : List Char} (h : nul ∉ s) : cstr (s ++ nul :: t) = s := by
  have hs : ∀ x ∈ s, (decide (x ≠ nul)) = true := by
    intro x hx
    have : x ≠ nul := fun e => h (e ▸ hx)
    simpa using this
  unfold cstr
  rw [List.takeWhile_append_of_pos hs]
  simp

/-- The text `s` at the start of a buffer of `n` bytes whose rest is `nul`. -/
def padded (n : Nat) (s : List Char) : List Char := s ++ List.replicate (n - s.length) nul

@[simp] theorem padded_length {n : Nat} {s : List Char} (h : s.length ≤ n) :
    (padded n s).length = n := by
  simp [padded]; omega

/-- A buffer whose bytes from `s.length` on are `nul` is a padded one. -/
theorem eq_padded {n : Nat} {s buf : List Char} (hl : buf.length = n) (hs : s <+: buf)
    (h0 : ∀ i, s.length ≤ i → i < n → buf[i]? = some nul) : buf = padded n s := by
  obtain ⟨t, rfl⟩ := hs
  unfold padded
  congr 1
  rw [List.eq_replicate_iff]
  have hlen : s.length + t.length = n := by simpa using hl
  refine ⟨by omega, ?_⟩
  intro b hb
  obtain ⟨j, hj, rfl⟩ := List.mem_iff_getElem.mp hb
  have := h0 (s.length + j) (by omega) (by omega)
  rw [List.getElem?_append_right (by omega)] at this
  simpa [hj] using this

/-- Bytes `nul` behind the text do not matter for what is searched in it. -/
theorem strchr_append_nul {s : List Char} {c : Char} (hc : c ≠ nul) (n : Nat) :
    strchr (s ++ List.replicate n nul) c = strchr s c := by
  induction s with
  | nil => cases n <;> simp [strchr, List.replicate_succ, Ne.symm hc]
  | cons x xs ih => simp only [List.cons_append, strchr, ih]

theorem strchr_padded {n : Nat} {s : List Char} {c : Char} (hc : c ≠ nul) :
    strchr (padded n s) c = strchr s c :=
  strchr_append_nul hc _

/-- What `store` replaces: the bytes `b` between `a` and `c`. -/
theorem store_append {a b c s : List Char} (h : b.length = s.length) :
    store (a ++ b ++ c) a.length s = .ok (a ++ s ++ c) := by
  rw [store, if_pos (by simp; omega), List.append_assoc a b c, List.take_left',
    List.drop_append, List.drop_of_length_le (by omega), List.nil_append, Nat.add_sub_cancel_left,
    ← h, List.drop_left']
  · rfl
  · rfl

/-- Text written behind the text of a padded buffer. -/
theorem store_padded {n : Nat} {s t : List Char} (h : s.length + t.length ≤ n) :
    store (padded n s) s.length t = .ok (padded n (s ++ t)) := by
  have hsplit : n - s.length = t.length + (n - (s ++ t).length) := by
    rw [List.length_append]; omega
  rw [padded, hsplit, List.replicate_add, ← List.append_assoc, store_append (by simp)]
  rfl

/-- The bytes from `c` on moved down to the end of `a`. -/
theorem memmove_append {a b c : List Char} {k : Nat} (h : k ≤ c.length) :
    memmove (a ++ b ++ c) a.length (a.length + b.length) k =
      .ok (a ++ c.take k ++ (b ++ c).drop k) := by
  have hsrc : (a ++ b ++ c).drop (a.length + b.length) = c := by
    rw [← List.length_append, List.drop_left']
    rfl
  have hlen : ((b ++ c).take k).length = (c.take k).length := by
    simp; omega
  have hst := store_append (a := a) (c := (b ++ c).drop k) hlen
  rw [List.append_assoc a, List.take_append_drop, ← List.append_assoc] at hst
  rw [memmove, if_pos (by simp; omega), hsrc, hst]

/-- The rest `r` of a text moved to the front, and what is behind it cleared. -/
theorem advance_append (p r z : List Char) :
    (memmove (p ++ r ++ z) 0 p.length r.length >>= fun buf => memset buf r.length p.length) =
      .ok (r ++ (List.replicate p.length nul ++ z)) := by
  have hm := memmove_append (a := []) (b := p) (c := r ++ z) (k := r.length) (by simp)
  simp only [List.nil_append, List.length_nil, Nat.zero_add, List.take_left',
    ← List.append_assoc] at hm
  have hz : (p ++ r ++ z).drop r.length = (p ++ r).drop r.length ++ z := by
    rw [List.drop_append_of_le_length (by simp)]
  rw [hm, hz, ← List.append_assoc, ← List.append_assoc]
  exact store_append (by simp)

end CLib
