import UgTrain.CLib.Bytes
import UgTrain.Process

/-!
# Access to the game by words (`memattach_l.h`)

Without `/proc/$pid/mem`, `memread` and `memwrite` are loops over words. The last word of a write is
in part from the buffer. The rest of it is taken from the word at the start of the range, which is
the right one only for ranges that are shorter than a word. `memwrite_exact_iff`: the write is exact
unless this changes the bytes behind the range.

* `memwrite_eq` says what is written: the buffer and its `overrun`.
* `memread_refines` and `memwrite_refines` are the operations of `Target`.
-/

namespace UgTrain

namespace Ptrace

open CLib

/-- A `ptr_t` as its bytes in memory. -/
abbrev Word := Vector UInt8 8

/-- `memcpy(&rw_val, bs, ..)` -/
def Word.load (val : Word) (bs : List UInt8) : Word := Vector.ofFn fun i => bs.getD i val[i]

/-- `PTRACE_PEEKDATA`. -/
def peek (t : Target) (addr : Ptr) : Option Word :=
  if t.readOk addr 8 then some (Vector.ofFn fun i : Fin 8 => t.mem (addr + BitVec.ofNat 64 i))
  else none

/-- `PTRACE_POKEDATA`. -/
def poke (t : Target) (addr : Ptr) (val : Word) : Option Target :=
  if t.writeOk addr 8 then some { t with mem := put t.mem addr val.toList } else none

/-- The loop of `memread`, for `n` more words. -/
def readWords (t : Target) (addr : Ptr) :
    Nat → Nat → List UInt8 → Except (List UInt8) (List UInt8)
  | 0, _, buf => .ok buf
  | n + 1, pos, buf =>
    match peek t (addr + BitVec.ofNat 64 (pos * 8)) with
    | none => .error buf
    | some readVal => readWords t addr n (pos + 1) (splice buf (pos * 8) readVal.toList)

/-- `memread`: the buffer of `buf_len` bytes afterwards, an error is -1. -/
def memread (t : Target) (pid : BitVec 32) (addr : Ptr) (buf : List UInt8) :
    Except (List UInt8) (List UInt8) :=
  if pid.toInt ≤ 1 ∨ addr = 0 ∨ buf.length ≤ 0 then .error buf
  else do
    let pos := buf.length / 8
    let buf ← readWords t addr pos 0 buf
    let len := buf.length % 8
    if 0 < len then
      match peek t (addr + BitVec.ofNat 64 (pos * 8)) with
      | none => .error buf
      | some readVal => .ok (splice buf (pos * 8) (readVal.toList.take len))
    else .ok buf

/-- The loop of `memwrite`, for `n` more words. -/
def writeWords (addr : Ptr) (buf : List UInt8) :
    Nat → Nat → Word → Target → Except Target (Word × Target)
  | 0, _, rwVal, t => .ok (rwVal, t)
  | n + 1, pos, rwVal, t =>
    let rwVal := rwVal.load ((buf.drop (pos * 8)).take 8)
    match poke t (addr + BitVec.ofNat 64 (pos * 8)) rwVal with
    | none => .error t
    | some t => writeWords addr buf n (pos + 1) rwVal t

/-- `memwrite`: the game afterwards, an error is -1. -/
def memwrite (t : Target) (pid : BitVec 32) (addr : Ptr) (buf : List UInt8) : Except Target Target :=
  if pid.toInt ≤ 1 ∨ addr = 0 ∨ buf.length ≤ 0 then .error t
  else do
    let pos := buf.length / 8
    let (_, t) ← writeWords addr buf pos 0 (Vector.replicate 8 0) t
    let len := buf.length % 8
    if 0 < len then
      -- the word at the start of the range
      match peek t addr with
      | none => .error t
      | some rwVal =>
        let rwVal := rwVal.load ((buf.drop (pos * 8)).take len)
        match poke t (addr + BitVec.ofNat 64 (pos * 8)) rwVal with
        | none => .error t
        | some t => .ok t
    else .ok t

/-- What is there afterwards, with and without an error. -/
def after {α : Type} : Except α α → α
  | .error a => a
  | .ok a => a

/-- The bytes that are written behind the range. -/
def overrun (buf : List UInt8) : List UInt8 :=
  if buf.length < 8 ∨ buf.length % 8 = 0 then [] else (buf.take 8).drop (buf.length % 8)

/-- The bytes behind the range are the ones that are written there. -/
def Kept (t : Target) (addr : Ptr) (buf : List UInt8) : Prop :=
  buf.length < 8 ∨ buf.length % 8 = 0 ∨
    rangeBytes t.mem (addr + BitVec.ofNat 64 buf.length) (8 - buf.length % 8) =
      (buf.take 8).drop (buf.length % 8)

/-- `memwrite` writes the buffer and nothing else, and `memread` gives it back. -/
structure Exact (t : Target) (pid : BitVec 32) (addr : Ptr) (buf : List UInt8) : Prop where
  write : (after (memwrite t pid addr buf)).mem = put t.mem addr buf
  read : ∀ rbuf : List UInt8, rbuf.length = buf.length →
    after (memread (after (memwrite t pid addr buf)) pid addr rbuf) = buf
  ok : buf ≠ [] → (∃ t', memwrite t pid addr buf = .ok t') ∧
    ∀ rbuf : List UInt8, rbuf.length = buf.length →
      memread (after (memwrite t pid addr buf)) pid addr rbuf = .ok buf

/-! ## Words -/

section Words

variable {t : Target} {addr : Ptr} {m : Ptr → UInt8} {buf bs rest : List UInt8} {n pos : Nat}

theorem load_toList (val : Word) (h : bs.length ≤ 8) :
    (val.load bs).toList = bs ++ val.toList.drop bs.length := by
  refine List.ext_getElem (by simp; omega) fun i hi hi' => ?_
  simp only [Word.load, Vector.getElem_toList, Vector.getElem_ofFn]
  by_cases hlt : i < bs.length
  · rw [List.getD_eq_getElem _ _ hlt, List.getElem_append_left hlt]
  · rw [List.getD_eq_default _ _ (by omega), List.getElem_append_right (by omega), List.getElem_drop]
    simp [Nat.add_sub_cancel' (by omega : bs.length ≤ i)]

theorem peek_eq (h : ∀ a, t.readOk a 8 = true) (addr : Ptr) :
    ∃ val : Word, peek t addr = some val ∧ val.toList = rangeBytes t.mem addr 8 := by
  refine ⟨_, if_pos (h addr), List.ext_getElem (by simp) fun i hi hi' => ?_⟩
  simp [rangeBytes]

theorem splice_append (h : rest.length = n) :
    splice (rest ++ buf) n bs = rest ++ bs ++ buf.drop bs.length := by
  subst h
  rw [splice, List.take_left, List.drop_append]
  simp

/-- **The loop of** `memread`: `pos` words are read. -/
theorem readWords_eq (addr : Ptr) (n pos : Nat) (rest : List UInt8) (h : ∀ a, t.readOk a 8 = true) :
    readWords t addr n pos (rangeBytes t.mem addr (pos * 8) ++ rest) =
      .ok (rangeBytes t.mem addr ((pos + n) * 8) ++ rest.drop (n * 8)) := by
  induction n generalizing pos rest with
  | zero => simp [readWords]
  | succ n ih =>
    obtain ⟨val, hpeek, hval⟩ := peek_eq h (addr + BitVec.ofNat 64 (pos * 8))
    have hlen : val.toList.length = 8 := by simp
    rw [readWords, hpeek]
    dsimp only
    rw [splice_append length_rangeBytes, hval, ← rangeBytes_add, length_rangeBytes,
      show pos * 8 + 8 = (pos + 1) * 8 by omega, ih, List.drop_drop]
    congr 3 <;> omega

/-- **The loop of** `memwrite`: `pos` words are written. -/
theorem writeWords_eq (m : Ptr → UInt8) (addr : Ptr) (n pos : Nat) (rwVal : Word)
    (h : ∀ a, t.writeOk a 8 = true)
    (hn : (pos + n) * 8 ≤ buf.length) (hlen : buf.length < 2 ^ 64) :
    ∃ rwVal', writeWords addr buf n pos rwVal { t with mem := put m addr (buf.take (pos * 8)) } =
      .ok (rwVal', { t with mem := put m addr (buf.take ((pos + n) * 8)) }) := by
  induction n generalizing pos rwVal with
  | zero => exact ⟨rwVal, rfl⟩
  | succ n ih =>
    have hchunk : ((buf.drop (pos * 8)).take 8).length = 8 := by
      rw [List.length_take, List.length_drop]
      omega
    have hpre : (buf.take (pos * 8)).length = pos * 8 := by
      rw [List.length_take]
      omega
    have hword : (rwVal.load ((buf.drop (pos * 8)).take 8)).toList = (buf.drop (pos * 8)).take 8 := by
      rw [load_toList _ (le_of_eq hchunk), hchunk]
      simp
    have hput : put (put m addr (buf.take (pos * 8))) (addr + BitVec.ofNat 64 (pos * 8))
        ((buf.drop (pos * 8)).take 8) = put m addr (buf.take ((pos + 1) * 8)) := by
      have hput := put_put m addr (d := buf.take (pos * 8))
        (e := (buf.drop (pos * 8)).take 8) (by omega) (by omega)
      rw [hpre] at hput
      rw [hput, ← List.take_add, Nat.succ_mul]
    obtain ⟨rwVal', hrest⟩ := ih (pos + 1) (rwVal.load ((buf.drop (pos * 8)).take 8)) (by omega)
    refine ⟨rwVal', ?_⟩
    rw [writeWords, poke, if_pos (h _)]
    dsimp only
    rw [hword, hput, hrest]
    congr 5
    omega

end Words

/-! ## The operations -/

section Access

variable {t : Target} {pid : BitVec 32} {addr : Ptr} {buf : List UInt8}

theorem access_ok (hpid : 1 < pid.toInt) (haddr : addr ≠ 0) (hne : buf ≠ []) :
    ¬ (pid.toInt ≤ 1 ∨ addr = 0 ∨ buf.length ≤ 0) := by
  have hpos := List.length_pos_of_ne_nil hne
  rintro (h | h | h)
  · omega
  · exact haddr h
  · omega

theorem memread_eq (hok : ∀ a, t.readOk a 8 = true) (hpid : 1 < pid.toInt) (haddr : addr ≠ 0)
    (hne : buf ≠ []) : memread t pid addr buf = .ok (rangeBytes t.mem addr buf.length) := by
  have hpos := List.length_pos_of_ne_nil hne
  have hdiv := Nat.div_add_mod buf.length 8
  have hloop := readWords_eq addr (buf.length / 8) 0 buf hok
  rw [Nat.zero_mul, Nat.zero_add] at hloop
  change readWords t addr (buf.length / 8) 0 buf = _ at hloop
  have hlen : (rangeBytes t.mem addr (buf.length / 8 * 8) ++ buf.drop (buf.length / 8 * 8)).length =
      buf.length := by
    rw [List.length_append, length_rangeBytes, List.length_drop]
    omega
  rw [memread, if_neg (access_ok hpid haddr hne)]
  dsimp only
  rw [hloop, Run.ok_bind]
  rw [hlen]
  by_cases hr : 0 < buf.length % 8
  · obtain ⟨val, hpeek, hval⟩ := peek_eq hok (addr + BitVec.ofNat 64 (buf.length / 8 * 8))
    rw [if_pos hr, hpeek]
    dsimp only
    rw [splice_append length_rangeBytes, hval, take_rangeBytes (by omega), ← rangeBytes_add,
      length_rangeBytes, List.drop_drop, List.drop_eq_nil_of_le (by omega), List.append_nil]
    congr 2
    omega
  · rw [if_neg hr, List.drop_eq_nil_of_le (by omega), List.append_nil]
    congr 2
    omega

/-- **What** `memwrite` **writes**: the bytes behind the range are those of the first word. -/
theorem memwrite_eq (hread : ∀ a, t.readOk a 8 = true) (hwrite : ∀ a, t.writeOk a 8 = true)
    (hpid : 1 < pid.toInt) (haddr : addr ≠ 0) (hne : buf ≠ []) (hlen : buf.length < 2 ^ 64) :
    memwrite t pid addr buf = .ok { t with mem := put t.mem addr (buf ++ overrun buf) } := by
  have hpos := List.length_pos_of_ne_nil hne
  have hdiv := Nat.div_add_mod buf.length 8
  obtain ⟨rwVal, hloop⟩ := writeWords_eq t.mem addr (buf.length / 8) 0 (Vector.replicate 8 0)
    hwrite (by omega) hlen
  rw [Nat.zero_mul, Nat.zero_add] at hloop
  change writeWords addr buf (buf.length / 8) 0 _ t = _ at hloop
  rw [memwrite, if_neg (access_ok hpid haddr hne)]
  dsimp only
  rw [hloop, Run.ok_bind]
  dsimp only
  by_cases hr : 0 < buf.length % 8
  · obtain ⟨val, hpeek, hval⟩ := peek_eq (t := ⟨put t.mem addr (buf.take (buf.length / 8 * 8)),
      t.readOk, t.writeOk⟩) hread addr
    have hpre : (buf.take (buf.length / 8 * 8)).length = buf.length / 8 * 8 := by
      rw [List.length_take]
      omega
    have htail : (buf.drop (buf.length / 8 * 8)).length = buf.length % 8 := by
      rw [List.length_drop]
      omega
    rw [if_pos hr, hpeek]
    dsimp only
    rw [poke, if_pos (hwrite _)]
    dsimp only
    rw [List.take_of_length_le (le_of_eq htail), load_toList _ (by omega), hval, htail]
    have hput := put_put t.mem addr (d := buf.take (buf.length / 8 * 8))
      (e := buf.drop (buf.length / 8 * 8) ++ (rangeBytes (put t.mem addr
        (buf.take (buf.length / 8 * 8))) addr 8).drop (buf.length % 8))
      (by rw [List.length_append, List.length_drop, List.length_drop, length_rangeBytes]; omega)
      (by omega)
    rw [hpre, ← List.append_assoc, List.take_append_drop] at hput
    rw [hput]
    congr 2
    by_cases hshort : buf.length < 8
    · -- the first word is the last one
      have hzero : buf.length / 8 * 8 = 0 := by omega
      have hmod : buf.length % 8 = buf.length := Nat.mod_eq_of_lt hshort
      rw [overrun, if_pos (.inl hshort), List.append_nil, hzero, List.take_zero, put_nil, hmod,
        drop_rangeBytes (by omega), put_append_eq_iff (by rw [length_rangeBytes]; omega) hlen,
        length_rangeBytes]
    · have hfirst : rangeBytes (put t.mem addr (buf.take (buf.length / 8 * 8))) addr 8 =
          buf.take 8 := by
        have hread := rangeBytes_put t.mem addr
          (d := buf.take (buf.length / 8 * 8)) (by omega)
        rw [← take_rangeBytes (n := (buf.take (buf.length / 8 * 8)).length) (by omega), hread,
          List.take_take]
        congr 1
        omega
      rw [overrun, if_neg (by omega), hfirst]
  · have hzero : buf.length / 8 * 8 = buf.length := by omega
    rw [if_neg hr, overrun, if_pos (.inr (by omega)), List.append_nil, hzero, List.take_length]

theorem length_overrun_le : (overrun buf).length ≤ 8 - buf.length % 8 := by
  unfold overrun
  split
  · exact Nat.zero_le _
  · rw [List.length_drop, List.length_take]
    omega

theorem kept_iff (hlen : buf.length < 2 ^ 64) :
    put t.mem addr (buf ++ overrun buf) = put t.mem addr buf ↔ Kept t addr buf := by
  have hfit : buf.length + (overrun buf).length ≤ 2 ^ 64 := by
    have hle : (overrun buf).length ≤ 8 - buf.length % 8 := length_overrun_le
    omega
  rw [put_append_eq_iff hfit hlen, overrun]
  by_cases h : buf.length < 8 ∨ buf.length % 8 = 0
  · rw [if_pos h]
    exact iff_of_true rfl (or_assoc.mp (.inl h))
  · have htail : ((buf.take 8).drop (buf.length % 8)).length = 8 - buf.length % 8 := by
      rw [List.length_drop, List.length_take]
      omega
    rw [if_neg h, htail]
    constructor
    · exact fun hkept => .inr (.inr hkept)
    · rintro (hlt | hmod | hkept)
      · exact absurd (.inl hlt) h
      · exact absurd (.inr hmod) h
      · exact hkept

/-- The write of `Target`. -/
theorem memwrite_refines (hread : ∀ a, t.readOk a 8 = true) (hwrite : ∀ a, t.writeOk a 8 = true)
    (hrange : t.writeOk addr buf.length = true) (hpid : 1 < pid.toInt) (haddr : addr ≠ 0)
    (hne : buf ≠ []) (hlen : buf.length < 2 ^ 64) (h : Kept t addr buf) :
    memwrite t pid addr buf = .ok (t.memwrite addr buf) := by
  rw [memwrite_eq hread hwrite hpid haddr hne hlen, (kept_iff hlen).mpr h, Target.memwrite,
    if_neg (by simpa [hrange] using haddr)]
  rfl

/-- The read of `Target`. -/
theorem memread_refines (hok : ∀ a, t.readOk a 8 = true) (hrange : t.readOk addr buf.length = true)
    (hpid : 1 < pid.toInt) (haddr : addr ≠ 0) (hne : buf ≠ []) :
    (memread t pid addr buf).toOption = t.memread addr buf.length := by
  rw [memread_eq hok hpid haddr hne, Target.memread, if_neg (by simpa [hrange] using haddr)]
  rfl

end Access

/-- **The access by words** is exact if the range is shorter than a word or ends with one, or if the
bytes up to the end of the last word are already the ones that are written there. -/
theorem memwrite_exact_iff (t : Target) (pid : BitVec 32) (addr : Ptr) (buf : List UInt8)
    (hread : ∀ a, t.readOk a 8 = true) (hwrite : ∀ a, t.writeOk a 8 = true)
    (hpid : 1 < pid.toInt) (haddr : addr ≠ 0) (hlen : buf.length < 2 ^ 64) :
    Exact t pid addr buf ↔ Kept t addr buf := by
  by_cases hne : buf = []
  · subst hne
    refine iff_of_true ⟨?_, fun rbuf hr => ?_, fun h => absurd rfl h⟩ (.inl (by decide))
    · simp [memwrite, after, put_nil]
    · obtain rfl := List.length_eq_zero_iff.mp hr
      simp [memread, after]
  · have hw := memwrite_eq hread hwrite hpid haddr hne hlen
    rw [← kept_iff hlen]
    constructor
    · intro h
      have hmem := h.write
      rw [hw] at hmem
      exact hmem
    · intro hmem
      rw [hmem] at hw
      have hr : ∀ rbuf : List UInt8, rbuf.length = buf.length →
          memread (after (memwrite t pid addr buf)) pid addr rbuf = .ok buf := by
        intro rbuf hrbuf
        have hrne : rbuf ≠ [] := List.ne_nil_of_length_pos (by
          rw [hrbuf]
          exact List.length_pos_of_ne_nil hne)
        have heq := memread_eq (t := ⟨put t.mem addr buf, t.readOk, t.writeOk⟩) hread hpid haddr hrne
        rw [hrbuf, rangeBytes_put _ _ (le_of_lt hlen)] at heq
        rw [hw]
        exact heq
      refine ⟨by rw [hw]; rfl, fun rbuf hrbuf => by rw [hr rbuf hrbuf]; rfl, fun _ => ⟨⟨_, hw⟩, hr⟩⟩

/-- A game with nothing but zeros in its memory. -/
def zeros : Target where
  mem := fun _ => 0
  readOk := fun _ _ => true
  writeOk := fun _ _ => true

/-- A word and a part of one, where the bytes behind the range are written as they are. -/
theorem memwrite_exact_iff_zeros : Exact zeros 2 0x1000 [1, 2, 3, 0, 0, 0, 0, 0, 9, 9, 9] :=
  (memwrite_exact_iff zeros 2 0x1000 [1, 2, 3, 0, 0, 0, 0, 0, 9, 9, 9] (fun _ => rfl) (fun _ => rfl)
    (by decide) (by decide) (by decide)).mpr (.inr (.inr (by decide)))

/-- Of the nine bytes of a write the first word changes the seven bytes behind them. -/
theorem memwrite_overruns :
    (after (memwrite zeros 2 0x1000 [1, 2, 3, 4, 5, 6, 7, 8, 9])).mem 0x1009 = 2 ∧
    put zeros.mem 0x1000 [1, 2, 3, 4, 5, 6, 7, 8, 9] 0x1009 = 0 ∧
    ¬ Exact zeros 2 0x1000 [1, 2, 3, 4, 5, 6, 7, 8, 9] := by
  have hmem : (after (memwrite zeros 2 0x1000 [1, 2, 3, 4, 5, 6, 7, 8, 9])).mem 0x1009 = 2 := by
    rw [memwrite_eq (fun _ => rfl) (fun _ => rfl) (by decide) (by decide) (by decide) (by decide)]
    decide
  have hput : put zeros.mem 0x1000 [1, 2, 3, 4, 5, 6, 7, 8, 9] 0x1009 = 0 := by decide
  refine ⟨hmem, hput, fun h => ?_⟩
  rw [h.write, hput] at hmem
  exact absurd hmem (by decide)

end Ptrace

end UgTrain
