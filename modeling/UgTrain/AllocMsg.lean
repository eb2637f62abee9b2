import UgTrain.FifoLemmas
import UgTrain.HackMsg

/-!
# Allocation messages

An `AllocMsg` is a line that the parser reads as an allocation. What it reads does not depend on
the text behind the line (`scanMalloc_line`), so a message stands for the same allocation in the
receive buffer and in the malloc queue.
-/

namespace UgTrain

open CLib

/-! ## Scanning a line with text behind it -/

/-- A number at the end of a line is read the same with any text behind the line. -/
structure LineScan (scan : Str → Option (BitVec 64 × Str)) : Prop where
  nil : scan [] = none
  line : ∀ (s t : Str) v r, scan (s ++ ['\n']) = some (v, r) →
    scan (s ++ '\n' :: t) = some (v, r ++ t)

theorem lineScan_ptr : LineScan scanPtr := ⟨rfl, fun _ _ _ _ h => scanPtr_line h⟩

theorem lineScan_uLong (b : Nat) : LineScan (scanULong b) :=
  ⟨rfl, fun _ _ _ _ h => scanULong_line h⟩

theorem drop_line {body t : Str} {i : Nat} (hi : i ≤ body.length) :
    (body ++ '\n' :: t).drop i = body.drop i ++ '\n' :: t :=
  List.drop_append_of_le_length hi

/-- Behind the position of a character in the line, the text goes on with what is behind it. -/
theorem drop_line_append {body t : Str} {i : Nat} (hi : i ≤ body.length + 1) :
    (body ++ '\n' :: t).drop i = (body ++ ['\n']).drop i ++ t := by
  rw [← List.drop_append_of_le_length (by simpa using hi)]
  simp

section Line

variable {scan : Str → Option (BitVec 64 × Str)} {body : Str} {i j e : Nat} {v : BitVec 64}
  {on : Bool} {c : Char} {pmask : PMask} {codeOffs : Ptr}

theorem scanAt_line (hs : LineScan scan) (t : Str) (h : scanAt scan (body ++ ['\n']) i = .ok v) :
    scanAt scan (body ++ '\n' :: t) i = .ok v := by
  unfold scanAt at h ⊢
  by_cases hi : i ≤ body.length
  · rw [drop_line hi] at h ⊢
    cases he : scan (body.drop i ++ ['\n']) with
    | none => rw [he] at h; cases h
    | some x =>
      rw [he] at h
      rw [hs.line _ t _ _ he]
      exact h
  · rw [List.drop_of_length_le (by simp; omega), hs.nil] at h
    cases h

theorem strchr_append {s : Str} {k : Nat} (t : Str) (h : strchr s c = some k) :
    strchr (s ++ t) c = some k := by
  induction s generalizing k with
  | nil => simp [strchr] at h
  | cons x s ih =>
    simp only [List.cons_append, strchr] at h ⊢
    split
    · rename_i hx; rw [if_pos hx] at h; exact h
    · rename_i hx
      rw [if_neg hx] at h
      split
      · rename_i h0; rw [if_pos h0] at h; cases h
      · rename_i h0
        rw [if_neg h0] at h
        obtain ⟨j, hj, rfl⟩ := Option.map_eq_some_iff.mp h
        rw [ih hj]; rfl

theorem scanField_line (hs : LineScan scan) (t : Str)
    (h : scanField on c scan (body ++ ['\n']) i = .ok (j, v)) :
    scanField on c scan (body ++ '\n' :: t) i = .ok (j, v) := by
  cases on with
  | false => exact h
  | true =>
    simp only [scanField, ↓reduceIte] at h ⊢
    cases hk : strchr ((body ++ ['\n']).drop i) ';' with
    | none => rw [hk] at h; cases h
    | some k =>
      have hlt := strchr_lt hk
      simp only [List.length_drop, List.length_append, List.length_singleton] at hlt
      rw [hk] at h
      rw [drop_line_append (by omega), strchr_append t hk]
      simp only at h ⊢
      split at h
      · rename_i hc
        have hc' : scanChar ((body ++ '\n' :: t).drop (i + k + 1)) = some c := by
          rw [drop_line_append (by omega)]
          cases hd : (body ++ ['\n']).drop (i + k + 1) with
          | nil => rw [hd] at hc; cases hc
          | cons x xs => rw [hd] at hc; exact hc
        rw [if_pos hc']
        cases hv : scanAt scan (body ++ ['\n']) (i + k + 1 + 1) with
        | error p => rw [hv] at h; cases h
        | ok w =>
          rw [hv] at h
          rw [scanAt_line hs t hv]
          exact h
      · cases h

/-- The parts of an allocation. -/
theorem scanMalloc_eq_ok {ibuf : Str} {call : Call} :
    scanMalloc pmask codeOffs ibuf 0 e = .ok call ↔
      ∃ a x y z, scanAt scanPtr ibuf 1 = .ok a ∧
        scanField pmask.s 's' (scanULong 10) ibuf 1 = .ok x ∧
        scanField pmask.c 'c' scanPtr ibuf x.1 = .ok y ∧
        scanField pmask.o 'o' scanPtr ibuf y.1 = .ok z ∧
        call = .mf ⟨ibuf, z.1, e⟩ a x.2 codeOffs y.2 z.2 := by
  simp only [scanMalloc, Run.bind_eq_ok, Nat.zero_add, pure, Except.pure, Except.ok.injEq]
  constructor
  · rintro ⟨a, h1, x, h2, y, h3, z, h4, rfl⟩
    exact ⟨a, x, y, z, h1, h2, h3, h4, rfl⟩
  · rintro ⟨a, x, y, z, h1, h2, h3, h4, rfl⟩
    exact ⟨a, h1, x, h2, y, h3, z, h4, rfl⟩

/-- **An allocation is read the same with any text behind its line.** -/
theorem scanMalloc_line {pp : PostParse} {memAddr offs codeAddr stackOffs : Ptr} {size : SizeT}
    (t : Str) (h : scanMalloc pmask codeOffs (body ++ ['\n']) 0 e =
      .ok (.mf pp memAddr size offs codeAddr stackOffs)) :
    ∃ ppos, scanMalloc pmask codeOffs (body ++ '\n' :: t) 0 e =
      .ok (.mf ⟨body ++ '\n' :: t, ppos, e⟩ memAddr size offs codeAddr stackOffs) := by
  obtain ⟨a, x, y, z, h1, h2, h3, h4, hcall⟩ := scanMalloc_eq_ok.mp h
  simp only [Call.mf.injEq] at hcall
  obtain ⟨-, rfl, rfl, rfl, rfl, rfl⟩ := hcall
  exact ⟨z.1, scanMalloc_eq_ok.mpr ⟨_, x, y, z, scanAt_line lineScan_ptr t h1,
    scanField_line (lineScan_uLong 10) t h2, scanField_line lineScan_ptr t h3,
    scanField_line lineScan_ptr t h4, rfl⟩⟩

end Line

/-! ## Messages -/

/-- A line that is read as an allocation with the mask of the main loop. -/
structure AllocMsg where
  /-- The line without its line break. -/
  body : Str
  memAddr : Ptr
  memSize : SizeT
  codeAddr : Ptr
  isLine : IsLine body
  first : body.head? = some 'm'
  scans : ∃ ppos, scanMalloc .sc 0 (body ++ ['\n']) 0 body.length =
    .ok (.mf ⟨body ++ ['\n'], ppos, body.length⟩ memAddr memSize 0 codeAddr 0)

namespace AllocMsg

variable (m : AllocMsg)

/-- The line with its line break. -/
def text : Str := m.body ++ ['\n']

/-- What `alloc_dynmem_addr` is called with. -/
def args : Ptr × SizeT × Ptr := (m.memAddr, m.memSize, m.codeAddr)

@[simp] theorem text_length : m.text.length = m.body.length + 1 := by simp [text]

theorem text_append (t : Str) : m.text ++ t = m.body ++ '\n' :: t := by simp [text]

theorem body_eq : ∃ tl, m.body = 'm' :: tl := by
  have h := m.first
  cases hb : m.body with
  | nil => rw [hb] at h; cases h
  | cons c tl => rw [hb] at h; cases h; exact ⟨tl, rfl⟩

theorem nul_not_mem_text : nul ∉ m.text := by
  have h : nul ≠ '\n' := by decide
  simp [text, m.isLine.2, h]

/-- The parser reads the message in any buffer that starts with its line. -/
theorem scanMalloc_text (t : Str) :
    ∃ ppos, scanMalloc .sc 0 (m.text ++ t) 0 m.body.length =
      .ok (.mf ⟨m.text ++ t, ppos, m.body.length⟩ m.memAddr m.memSize 0 m.codeAddr 0) := by
  obtain ⟨ppos, h⟩ := m.scans
  rw [text_append]
  exact scanMalloc_line t h

/-- The address is what a scan behind the `m` gives. -/
theorem scanPtr_tail {tl : Str} (hb : m.body = 'm' :: tl) (t : Str) :
    ∃ r, scanPtr (tl ++ '\n' :: t) = some (m.memAddr, r) := by
  obtain ⟨ppos, h⟩ := m.scans
  obtain ⟨a, x, y, z, h1, -, -, -, hcall⟩ := scanMalloc_eq_ok.mp h
  simp only [Call.mf.injEq] at hcall
  have hline := scanAt_line lineScan_ptr t h1
  rw [hb, ← hcall.2.1] at hline
  unfold scanAt at hline
  simp only [List.cons_append, List.drop_succ_cons, List.drop_zero] at hline
  cases hs : scanPtr (tl ++ '\n' :: t) with
  | none => rw [hs] at hline; cases hline
  | some x =>
    rw [hs] at hline
    exact ⟨x.2, by rw [← Except.ok.inj hline]⟩

end AllocMsg

/-- The allocation that libmemhack reports. -/
def HackMsg.allocMsg (memAddr : Ptr) (size : SizeT) (codeAddr : Ptr) : AllocMsg where
  body := (HackMsg.malloc memAddr size codeAddr).body
  memAddr := memAddr
  memSize := size
  codeAddr := codeAddr
  isLine := (HackMsg.malloc memAddr size codeAddr).body_not_mem trivial
  first := rfl
  scans := by
    have h := scanMalloc_encode 0 memAddr codeAddr size []
      (HackMsg.malloc memAddr size codeAddr).body.length
    rw [List.append_nil] at h
    exact h

end UgTrain
