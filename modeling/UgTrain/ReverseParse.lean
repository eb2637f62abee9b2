import UgTrain.CLib.Ended
import UgTrain.FifoBuffer
import UgTrain.ReverseWindows

/-!
# Reverse parsing delivers each line once

A window cuts a line anywhere. What is left of it is moved behind the next window, where the rest of
the line is; a tail of the file without a line break stays behind a `nul` and only takes room.

* `scanMsg_ended`: a line that is ended in the buffer is scanned as if it stood alone.
* `parseReverse_lines`: the message loop calls the callbacks for the complete lines, the last one
  first.
* `readsBack_lines`: all the windows of a file together.
-/

namespace UgTrain

open CLib

section Line

variable {σ : Type} {cb : ParseCb σ} {pmask : PMask} {codeOffs : Ptr} {l p y : Str}

/-- The call of a line that stands at `k` in the buffer. -/
def Call.inBuf (buf : Str) (k : Nat) : Call → Call
  | .mf pp memAddr memSize codeOffs codeAddr stackOffs =>
    .mf ⟨buf, pp.ppos + k, pp.msgEnd + k⟩ memAddr memSize codeOffs codeAddr stackOffs
  | call => call

theorem drop_ended (k : Nat) (hk : k ≤ l.length) :
    (p ++ (l ++ nul :: y)).drop (p.length + k) = l.drop k ++ nul :: y := by
  rw [← List.drop_drop, List.drop_left', List.drop_append_of_le_length hk]
  rfl

theorem scanAt_ended {scan : Str → Option (BitVec 64 × Str)} {k : Nat} {v : BitVec 64}
    (hscan : ∀ s t, scan (s ++ nul :: t) = (scan s).map fun r => (r.1, r.2 ++ nul :: t))
    (hk : k ≤ l.length) (h : scanAt scan l k = .ok v) :
    scanAt scan (p ++ (l ++ nul :: y)) (p.length + k) = .ok v := by
  unfold scanAt at h ⊢
  rw [drop_ended k hk, hscan]
  cases hs : scan (l.drop k) with
  | none =>
    rw [hs] at h
    cases h
  | some r =>
    rw [hs] at h
    exact h

/-- A field is found at the same place. -/
theorem scanField_ended {on : Bool} {ch : Char} {scan : Str → Option (BitVec 64 × Str)}
    {k k' : Nat} {v : BitVec 64}
    (hscan : ∀ s t, scan (s ++ nul :: t) = (scan s).map fun r => (r.1, r.2 ++ nul :: t))
    (hk : k ≤ l.length) (h : scanField on ch scan l k = .ok (k', v)) :
    k' ≤ l.length ∧
      scanField on ch scan (p ++ (l ++ nul :: y)) (p.length + k) = .ok (p.length + k', v) := by
  cases on with
  | false =>
    cases h
    exact ⟨hk, rfl⟩
  | true =>
    simp only [scanField, if_true] at h ⊢
    rw [drop_ended k hk, strchr_ended (by decide)]
    cases hsep : strchr (l.drop k) ';' with
    | none =>
      rw [hsep] at h
      cases h
    | some i =>
      rw [hsep] at h
      have hi := strchr_lt hsep
      rw [List.length_drop] at hi
      dsimp only at h ⊢
      rw [show p.length + k + i + 1 = p.length + (k + i + 1) by omega,
        drop_ended (k + i + 1) (by omega), scanChar_ended]
      split at h
      · rename_i hch
        rw [if_pos hch]
        cases hv : scanAt scan l (k + i + 1 + 1) with
        | error e =>
          rw [hv] at h
          cases h
        | ok v' =>
          rw [hv] at h
          cases h
          have hpos : k + i + 1 + 1 ≤ l.length := by
            have hne : l.drop (k + i + 1) ≠ [] := by
              intro hnil
              rw [hnil] at hch
              cases hch
            have := List.length_pos_of_ne_nil hne
            rw [List.length_drop] at this
            omega
          refine ⟨hpos, ?_⟩
          rw [show p.length + (k + i + 1) + 1 = p.length + (k + i + 1 + 1) by omega,
            scanAt_ended hscan hpos hv]
          rfl
      · cases h

theorem scanMalloc_ended {call : Call} (hl : 1 ≤ l.length)
    (h : scanMalloc pmask codeOffs l 0 l.length = .ok call) :
    scanMalloc pmask codeOffs (p ++ (l ++ nul :: y)) p.length (p.length + l.length) =
      .ok (call.inBuf (p ++ (l ++ nul :: y)) p.length) := by
  unfold scanMalloc at h ⊢
  obtain ⟨memAddr, haddr, h⟩ := Run.bind_eq_ok.mp h
  obtain ⟨⟨k₁, memSize⟩, hsize, h⟩ := Run.bind_eq_ok.mp h
  obtain ⟨⟨k₂, codeAddr⟩, hcode, h⟩ := Run.bind_eq_ok.mp h
  obtain ⟨⟨k₃, stackOffs⟩, hoffs, h⟩ := Run.bind_eq_ok.mp h
  cases h
  obtain ⟨hk₁, hsize⟩ := scanField_ended (p := p) (y := y) (fun _ _ => scanULong_ended) hl hsize
  obtain ⟨hk₂, hcode⟩ := scanField_ended (p := p) (y := y) (fun _ _ => scanPtr_ended) hk₁ hcode
  obtain ⟨hk₃, hoffs⟩ := scanField_ended (p := p) (y := y) (fun _ _ => scanPtr_ended) hk₂ hoffs
  rw [scanAt_ended (fun _ _ => scanPtr_ended) hl haddr]
  simp only [hsize, hcode, hoffs, bind, Except.bind, pure, Except.pure, Call.inBuf]
  rw [Nat.add_comm k₃, Nat.add_comm l.length]

theorem scanLib_ended {call : Call} (h : scanLib l 0 l.length = .ok call) :
    scanLib (p ++ (l ++ nul :: y)) p.length (p.length + l.length) =
      .ok (call.inBuf (p ++ (l ++ nul :: y)) p.length) := by
  unfold scanLib at h ⊢
  dsimp only at h ⊢
  split at h
  · rename_i hsep
    cases h
    have h2 : 2 ≤ l.length := (List.getElem?_eq_some_iff.mp hsep).1
    rw [if_pos, drop_ended 2 h2, List.take_append_of_le_length]
    · rw [show p.length + l.length - (p.length + 1 + 1) = l.length - (0 + 1 + 1) by omega]
      rfl
    · rw [List.length_drop]
      omega
    · rw [List.getElem?_append_right (by omega), List.getElem?_append_left (by omega)]
      simpa using hsep
  · cases h

/-- **A line that is ended in the buffer** is scanned as if it stood alone. -/
theorem scanMsg_ended {call : Call} (h : scanMsg cb pmask codeOffs l 0 l.length = .ok call) :
    scanMsg cb pmask codeOffs (p ++ (l ++ nul :: y)) p.length (p.length + l.length) =
      .ok (call.inBuf (p ++ (l ++ nul :: y)) p.length) := by
  have hl : 1 ≤ l.length := by
    cases l with
    | nil => cases h
    | cons c l => simp
  unfold scanMsg at h ⊢
  have hchar : scanChar ((p ++ (l ++ nul :: y)).drop p.length) = scanChar (l.drop 0) := by
    have := drop_ended (p := p) (y := y) 0 (Nat.zero_le l.length)
    rw [Nat.add_zero] at this
    rw [this, scanChar_ended]
  rw [hchar]
  generalize scanChar (l.drop 0) = ch at h
  split at h
  · cases h
  · split at h
    · rename_i hmf
      simp only [hmf, if_true]
      exact scanMalloc_ended hl h
    · rename_i hmf
      simp only [hmf]
      cases h
      rfl
  · split at h
    · rename_i hff
      simp only [hff, if_true]
      cases hv : scanAt scanPtr l (0 + 1) with
      | error e =>
        rw [hv] at h
        cases h
      | ok v =>
        rw [hv] at h
        cases h
        rw [scanAt_ended (fun _ _ => scanPtr_ended) hl hv]
        rfl
    · rename_i hff
      simp only [hff]
      cases h
      rfl
  · split at h
    · rename_i hlf
      simp only [hlf, if_true]
      exact scanLib_ended h
    · rename_i hlf
      simp only [hlf]
      cases h
      rfl
  · split at h
    · rename_i hsf
      simp only [hsf, if_true]
      unfold scanStackEnd at h ⊢
      obtain ⟨stackEnd, hv, h⟩ := Run.bind_eq_ok.mp h
      rw [scanAt_ended (fun _ _ => scanPtr_ended) hl hv]
      cases h
      simp only [bind, Except.bind, pure, Except.pure]
      split <;> rfl
    · rename_i hsf
      simp only [hsf]
      cases h
      rfl
  · cases h
    rfl

end Line

/-! ## The message loop -/

/-- The text of complete lines. -/
def joinLines (ls : List Str) : Str := ls.flatMap (· ++ ['\n'])

section Loop

variable {σ : Type} {cb : ParseCb σ} {pmask : PMask} {codeOffs : Ptr}

variable (cb pmask codeOffs) in
/-- The callbacks are called for one line after the other, each as if it stood alone but for the
place in the buffer. -/
def Delivered : List Str → σ → σ → Prop
  | [], a, a' => a' = a
  | l :: ls, a, a' => ∃ call buf k a₁, scanMsg cb pmask codeOffs l 0 l.length = .ok call ∧
      cb.call (call.inBuf buf k) a = .ok a₁ ∧ Delivered ls a₁ a'

variable (cb pmask codeOffs) in
/-- A line that can be scanned. -/
def Scans (l : Str) : Prop := ∃ call, scanMsg cb pmask codeOffs l 0 l.length = .ok call

variable {l q h y : Str} {ls ls' : List Str} {ilen t : Nat} {a a' a'' : σ}

@[simp] theorem joinLines_nil : joinLines [] = [] := rfl

@[simp] theorem joinLines_cons : joinLines (l :: ls) = l ++ '\n' :: joinLines ls := by
  simp [joinLines]

@[simp] theorem joinLines_append : joinLines (ls ++ ls') = joinLines ls ++ joinLines ls' := by
  simp [joinLines]

theorem Delivered.append (h : Delivered cb pmask codeOffs ls a a')
    (h' : Delivered cb pmask codeOffs ls' a' a'') :
    Delivered cb pmask codeOffs (ls ++ ls') a a'' := by
  induction ls generalizing a with
  | nil =>
    cases h
    exact h'
  | cons l ls ih =>
    obtain ⟨call, buf, k, a₁, hs, hc, h⟩ := h
    exact ⟨call, buf, k, a₁, hs, hc, ih h⟩

/-- No line is complete: there is one line break only. -/
theorem parseReverse_none (hh : '\n' ∉ h) (hn : nul ∉ h) (hy : '\n' ∉ cstr y) :
    parseReverse cb pmask codeOffs (h ++ '\n' :: y) ilen t a =
      .ok ⟨t, h ++ '\n' :: y, ilen, none, a⟩ := by
  have hend : strrchr (h ++ '\n' :: y) '\n' = some h.length :=
    strrchr_append_cons hn hy (by decide)
  have hset : (h ++ '\n' :: y).set h.length nul = h ++ nul :: y := by
    rw [List.set_append_right _ _ le_rfl, Nat.sub_self]
    rfl
  have hsep : strrchr ((h ++ '\n' :: y).set h.length nul) '\n' = none := by
    rw [hset, strrchr_eq_none, cstr_append_nul hn]
    exact hh
  rw [parseReverse]
  split
  · rfl
  · rename_i heq
    cases hend.symm.trans heq
    split
    · rfl
    · rename_i heq
      cases hsep.symm.trans heq

/-- **The last complete line** is cleared once its callback is called. -/
theorem parseReverse_line (ilen t : Nat) (hl : IsLine l) (hq : nul ∉ q) (hy : '\n' ∉ cstr y) {call : Call}
    (hs : scanMsg cb pmask codeOffs l 0 l.length = .ok call)
    (hc : cb.call (call.inBuf (q ++ '\n' :: (l ++ nul :: y)) (q.length + 1)) a = .ok a')
    (hilen : l.length + 1 ≤ ilen) :
    parseReverse cb pmask codeOffs (q ++ '\n' :: (l ++ '\n' :: y)) ilen t a =
      parseReverse cb pmask codeOffs (q ++ '\n' :: (List.replicate (l.length + 1) nul ++ y))
        (ilen - (l.length + 1)) (l.length + 1) a' := by
  have hbuf : q ++ '\n' :: (l ++ '\n' :: y) = (q ++ '\n' :: l) ++ '\n' :: y := by simp
  have hlen : (q ++ '\n' :: l).length = q.length + 1 + l.length := by
    simp
    omega
  have hend : strrchr (q ++ '\n' :: (l ++ '\n' :: y)) '\n' = some (q.length + 1 + l.length) := by
    rw [hbuf, ← hlen]
    refine strrchr_append_cons ?_ hy (by decide)
    simp only [List.mem_append, List.mem_cons, not_or]
    exact ⟨hq, by decide, hl.2⟩
  have hset : (q ++ '\n' :: (l ++ '\n' :: y)).set (q.length + 1 + l.length) nul =
      q ++ '\n' :: (l ++ nul :: y) := by
    rw [hbuf, ← hlen, List.set_append_right _ _ le_rfl, Nat.sub_self]
    simp
  have hsep : strrchr ((q ++ '\n' :: (l ++ '\n' :: y)).set (q.length + 1 + l.length) nul) '\n' =
      some q.length := by
    rw [hset]
    refine strrchr_append_cons hq ?_ (by decide)
    rw [cstr_append_nul hl.2]
    exact hl.1
  have hmsg : scanMsg cb pmask codeOffs
      ((q ++ '\n' :: (l ++ '\n' :: y)).set (q.length + 1 + l.length) nul) (q.length + 1)
      (q.length + 1 + l.length) =
        .ok (call.inBuf (q ++ '\n' :: (l ++ nul :: y)) (q.length + 1)) := by
    have := scanMsg_ended (p := q ++ ['\n']) (y := y) hs
    rw [hset]
    simpa using this
  have hn : q.length + 1 + l.length - (q.length + 1) + 1 = l.length + 1 := by omega
  have hclear : memset ((q ++ '\n' :: (l ++ '\n' :: y)).set (q.length + 1 + l.length) nul)
      (q.length + 1) (q.length + 1 + l.length - (q.length + 1) + 1) =
        .ok (q ++ '\n' :: (List.replicate (l.length + 1) nul ++ y)) := by
    have := store_append (a := q ++ ['\n']) (b := l ++ [nul]) (c := y)
      (s := List.replicate (l.length + 1) nul) (by simp)
    rw [hset, hn]
    simpa [memset] using this
  rw [parseReverse]
  split
  · rename_i heq
    cases hend.symm.trans heq
  · rename_i heq
    cases hend.symm.trans heq
    split
    · rename_i heq
      cases hsep.symm.trans heq
    · rename_i heq
      cases hsep.symm.trans heq
      rw [hmsg]
      dsimp only
      rw [hc]
      dsimp only
      split
      · rename_i heq
        cases hclear.symm.trans heq
      · rename_i heq
        cases hclear.symm.trans heq
        rw [hn, if_neg (by omega)]

/-- The line break at the end of complete lines. -/
theorem joinLines_end (hn : nul ∉ h) (hls : ∀ l ∈ ls, IsLine l) :
    ∃ q, h ++ '\n' :: joinLines ls = q ++ ['\n'] ∧ nul ∉ q := by
  induction ls using List.reverseRecOn with
  | nil => exact ⟨h, rfl, hn⟩
  | append_singleton ls l ih =>
    obtain ⟨q, hq, hnq⟩ := ih fun l hl => hls l (List.mem_append_left _ hl)
    refine ⟨q ++ '\n' :: l, ?_, ?_⟩
    · rw [joinLines_append, ← List.cons_append, ← List.append_assoc, hq]
      simp
    · simp only [List.mem_append, List.mem_cons, not_or]
      exact ⟨hnq, by decide, (hls l (by simp)).2⟩

/-- **The message loop** calls the callbacks for the complete lines, the last one first, and clears
them. The part of a line in front of them stays. -/
theorem parseReverse_lines (ilen t : Nat) (hcb : cb.Returns) (hh : '\n' ∉ h) (hn : nul ∉ h)
    (hls : ∀ l ∈ ls, IsLine l ∧ Scans cb pmask codeOffs l) (hy : '\n' ∉ cstr y)
    (hilen : (joinLines ls).length ≤ ilen) :
    ∃ t' a', parseReverse cb pmask codeOffs (h ++ '\n' :: (joinLines ls ++ y)) ilen t a =
        .ok ⟨t', h ++ '\n' :: (List.replicate (joinLines ls).length nul ++ y),
          ilen - (joinLines ls).length, none, a'⟩ ∧
      Delivered cb pmask codeOffs ls.reverse a a' := by
  induction ls using List.reverseRecOn generalizing y ilen t a with
  | nil => exact ⟨t, a, parseReverse_none hh hn hy, rfl⟩
  | append_singleton ls l ih =>
    have hls' : ∀ l ∈ ls, IsLine l ∧ Scans cb pmask codeOffs l :=
      fun l hl => hls l (List.mem_append_left _ hl)
    obtain ⟨hl, call, hs⟩ := hls l (by simp)
    obtain ⟨q, hq, hnq⟩ := joinLines_end hn fun l hl => (hls' l hl).1
    obtain ⟨a₁, hc⟩ := hcb (call.inBuf (q ++ '\n' :: (l ++ nul :: y)) (q.length + 1)) a
    have hlen : (joinLines (ls ++ [l])).length = (joinLines ls).length + (l.length + 1) := by
      simp
    have hstep := parseReverse_line ilen t hl hnq hy hs hc (by omega)
    have hy' : '\n' ∉ cstr (List.replicate (l.length + 1) nul ++ y) := by
      simp [cstr, List.replicate_succ]
    obtain ⟨t', a', hrun, hdel⟩ := ih (y := List.replicate (l.length + 1) nul ++ y)
      (ilen - (l.length + 1)) (l.length + 1) (a := a₁) hls' hy' (by omega)
    have hfront : ∀ z, h ++ '\n' :: (joinLines ls ++ z) = q ++ '\n' :: z := by
      intro z
      have := congrArg (· ++ z) hq
      simpa using this
    refine ⟨t', a', ?_, ?_⟩
    · have hback : joinLines (ls ++ [l]) ++ y = joinLines ls ++ (l ++ '\n' :: y) := by simp
      have hrep : List.replicate (joinLines (ls ++ [l])).length nul =
          List.replicate (joinLines ls).length nul ++ List.replicate (l.length + 1) nul := by
        rw [hlen, List.replicate_add]
      rw [hback, hfront, hstep, ← hfront, hrun, hrep, hlen, List.append_assoc,
        Nat.add_comm (joinLines ls).length, Nat.sub_sub]
    · rw [List.reverse_append, List.reverse_singleton, List.singleton_append]
      exact ⟨call, _, _, a₁, hs, hc, hdel⟩

end Loop

/-! ## Windows -/

/-- A position in the text of complete lines is in one of them. -/
theorem drop_joinLines {ls : List Str} {k : Nat} (hk : k < (joinLines ls).length) :
    ∃ ls₁ l ls₂ h, ls = ls₁ ++ l :: ls₂ ∧ h <:+ l ∧
      k + h.length = (joinLines ls₁).length + l.length ∧
      (joinLines ls).drop k = h ++ '\n' :: joinLines ls₂ ∧
      (joinLines (ls₁ ++ [l])).drop k = h ++ ['\n'] := by
  induction ls generalizing k with
  | nil => simp at hk
  | cons l ls ih =>
    by_cases hkl : k ≤ l.length
    · refine ⟨[], l, ls, l.drop k, rfl, List.drop_suffix k l, ?_, ?_, ?_⟩
      · simp
        omega
      · rw [joinLines_cons, List.drop_append_of_le_length hkl]
      · rw [List.nil_append, joinLines_cons, List.drop_append_of_le_length hkl]
        rfl
    · obtain ⟨j, rfl⟩ : ∃ j, k = l.length + 1 + j := ⟨k - (l.length + 1), by omega⟩
      have hdrop : ∀ t, (l ++ '\n' :: t).drop (l.length + 1 + j) = t.drop j := by
        intro t
        have hl : (l ++ ['\n']).length = l.length + 1 := by simp
        rw [← hl, ← List.drop_drop, show l ++ '\n' :: t = (l ++ ['\n']) ++ t by simp,
          List.drop_left']
        rfl
      obtain ⟨ls₁, l', ls₂, h, rfl, hsuf, hlen, hd, hd'⟩ := ih (k := j) (by
        rw [joinLines_cons] at hk
        simp at hk
        omega)
      refine ⟨l :: ls₁, l', ls₂, h, rfl, hsuf, ?_, ?_, ?_⟩
      · simp
        omega
      · rw [joinLines_cons, hdrop, hd]
      · rw [List.cons_append, joinLines_cons, hdrop, hd']

/-- Lines cut at a position: those behind it, the part `h` of the one that is cut, and the lines up to
this one. -/
theorem cut_lines {l₀ : Str} {ls : List Str} {k : Nat} (hls : ∀ l ∈ l₀ :: ls, IsLine l)
    (hk : k < (joinLines (l₀ :: ls)).length) :
    ∃ ls₁ ls₂ h, ls = ls₁ ++ ls₂ ∧ IsLine h ∧ (∃ l ∈ l₀ :: ls, h.length ≤ l.length) ∧
      k ≤ (joinLines (l₀ :: ls₁)).length ∧
      (joinLines (l₀ :: ls)).drop k = h ++ '\n' :: joinLines ls₂ ∧
      (joinLines (l₀ :: ls₁)).drop k = h ++ ['\n'] := by
  obtain ⟨pre, l, ls₂, h, hsplit, hsuf, hlen, hd, hd'⟩ := drop_joinLines hk
  have hl : l ∈ l₀ :: ls := by simp [hsplit]
  have hh : IsLine h := ⟨fun hm => (hls l hl).1 (hsuf.subset hm), fun hm => (hls l hl).2 (hsuf.subset hm)⟩
  obtain ⟨ls₁, hleft, hrev⟩ : ∃ ls₁, pre ++ [l] = l₀ :: ls₁ ∧ ls = ls₁ ++ ls₂ := by
    cases pre with
    | nil =>
      cases hsplit
      exact ⟨[], rfl, rfl⟩
    | cons x pre =>
      cases hsplit
      exact ⟨pre ++ [l], rfl, by simp⟩
  have hlen' : (joinLines (l₀ :: ls₁)).length = (joinLines pre).length + (l.length + 1) := by
    rw [← hleft]
    simp
  exact ⟨ls₁, ls₂, h, hrev, hh, ⟨l, hl, hsuf.length_le⟩, by omega, hd, hleft ▸ hd'⟩

/-- The buffer between two calls: the part `frag` of a line, a `nul`, and `k` more bytes that count
as left over. -/
structure Carries (k : Nat) (frag : Str) (b : ReadBuf) : Prop where
  length : b.ibuf.length = pipeBuf
  ilen : b.ilen = frag.length + k
  buf : ∃ g, b.ibuf = frag ++ nul :: g
  clear : k = 0 → ∃ n, b.ibuf = frag ++ List.replicate n nul

section Windows

variable {σ : Type} {cb : ParseCb σ} {pmask : PMask} {codeOffs : Ptr} {file frag input : Str}
  {w : Window} {b : ReadBuf} {k : Nat} {a : σ}

theorem store_zero {buf s : Str} (h : s.length ≤ buf.length) :
    store buf 0 s = .ok (s ++ buf.drop s.length) := by
  unfold store
  rw [if_pos (by omega)]
  simp

theorem replicate_nul_cons {m : Nat} {z : Str} :
    List.replicate m nul ++ nul :: z = nul :: (List.replicate m nul ++ z) := by
  induction m with
  | zero => rfl
  | succ m ih => rw [List.replicate_succ, List.cons_append, ih, List.cons_append]

/-- `move rest to the end`: in front of the rest there is room for the window. -/
theorem moveRest_carried (h : Carries k frag b) {len : Nat} (hlen : len + b.ilen < pipeBuf) :
    ∃ front z, moveRest b len = .ok (front ++ (frag ++ nul :: z)) ∧ front.length = len ∧
      (front ++ (frag ++ nul :: z)).length = pipeBuf ∧
      (k = 0 → ∃ n, nul :: z = List.replicate n nul) := by
  have hbuf := h.length
  have hilen := h.ilen
  unfold moveRest
  by_cases h0 : b.ilen = 0
  · -- nothing is left over: the buffer is clear
    obtain ⟨n, hn⟩ := h.clear (by omega)
    have hfrag : frag = [] := List.length_eq_zero_iff.mp (by omega)
    rw [hfrag, List.nil_append] at hn
    rw [hn, List.length_replicate] at hbuf
    obtain ⟨m, hm⟩ : ∃ m, n = len + (m + 1) := ⟨n - len - 1, by omega⟩
    refine ⟨List.replicate len nul, List.replicate m nul, ?_, by simp, ?_, fun _ => ⟨m + 1, rfl⟩⟩
    · rw [if_pos h0, hn, hfrag, hm, List.replicate_add]
      rfl
    · simp [hfrag]
      omega
  · rw [if_neg h0]
    have hmove : memmove b.ibuf len 0 b.ilen =
        .ok (b.ibuf.take len ++ (b.ibuf.take b.ilen ++ b.ibuf.drop (len + b.ilen))) := by
      unfold memmove store
      rw [if_pos (by omega), if_pos (by simp; omega)]
      simp [Nat.min_eq_left (show b.ilen ≤ b.ibuf.length by omega)]
    have hfront : (b.ibuf.take len).length = len := by
      rw [List.length_take]
      omega
    have htotal : (b.ibuf.take len ++ (b.ibuf.take b.ilen ++ b.ibuf.drop (len + b.ilen))).length =
        pipeBuf := by
      simp
      omega
    rw [hmove]
    cases k with
    | zero =>
      obtain ⟨n, hn⟩ := h.clear rfl
      have hn' : frag.length + n = pipeBuf := by
        rw [← hbuf, hn]
        simp
      obtain ⟨m, hm⟩ : ∃ m, n = len + (m + 1) := ⟨n - len - 1, by omega⟩
      have htake : b.ibuf.take b.ilen = frag := by
        rw [hn, hilen, Nat.add_zero, List.take_left']
        rfl
      have hdrop : b.ibuf.drop (len + b.ilen) = nul :: List.replicate m nul := by
        rw [hn, hilen, Nat.add_zero, Nat.add_comm len, ← List.drop_drop, List.drop_left' rfl, hm,
          List.drop_replicate, Nat.add_sub_cancel_left]
        rfl
      rw [htake, hdrop] at htotal ⊢
      exact ⟨_, _, rfl, hfront, htotal, fun _ => ⟨m + 1, rfl⟩⟩
    | succ k =>
      obtain ⟨g, hg⟩ := h.buf
      have htake : b.ibuf.take b.ilen ++ b.ibuf.drop (len + b.ilen) =
          frag ++ nul :: (g.take k ++ b.ibuf.drop (len + b.ilen)) := by
        rw [hilen, hg, List.take_append, List.take_of_length_le (by omega),
          Nat.add_sub_cancel_left, List.take_succ_cons]
        simp
      rw [htake] at htotal ⊢
      exact ⟨_, _, rfl, hfront, htotal, fun h => (nomatch h)⟩

/-- **The next window** stands in front of the rest. -/
theorem readWindow_carried (cb : ParseCb σ) (pmask : PMask) (codeOffs : Ptr) (a : σ)
    (h : Carries k frag b) (hin : (file.drop w.offs).take w.len = input)
    (hlen : input.length = w.len) (hpos : 0 < w.len) (hroom : w.len + b.ilen < pipeBuf) :
    ∃ z, readWindow cb pmask codeOffs file w b a =
        (parseReverse cb pmask codeOffs (input ++ (frag ++ nul :: z)) (b.ilen + input.length)
          input.length a).map (fun res => ((res.ret : Int), ⟨res.ibuf, res.ilen⟩, res.acc)) ∧
      (input ++ (frag ++ nul :: z)).length = pipeBuf ∧
      (k = 0 → ∃ n, nul :: z = List.replicate n nul) := by
  obtain ⟨front, z, hmove, hfront, hbuf, hclear⟩ := moveRest_carried h hroom
  have hstore : store (front ++ (frag ++ nul :: z)) 0 input = .ok (input ++ (frag ++ nul :: z)) := by
    rw [store_zero (by omega), hlen, ← hfront, List.drop_left']
    rfl
  have hne : input ≠ [] := by
    intro hnil
    rw [hnil] at hlen
    simp at hlen
    omega
  refine ⟨z, ?_, by simp at hbuf ⊢; omega, hclear⟩
  unfold readWindow
  rw [hmove]
  simp only [hin, Run.ok_bind, hstore, if_neg hne]
  cases parseReverse cb pmask codeOffs (input ++ (frag ++ nul :: z)) (b.ilen + input.length)
    input.length a <;> rfl

/-- The window in front of the position `e`, as large as there is room. -/
def windowBefore (e : Nat) (b : ReadBuf) : Window := ⟨e - min e b.maxRead, min e b.maxRead⟩

/-- **A call with complete lines**: they are delivered. -/
theorem readWindow_lines {e : Nat} {h t : Str} (hcb : cb.Returns)
    (hc : Carries k frag b) (he : 0 < e) (hle : e ≤ file.length)
    (hroom : frag.length + k < pipeBuf - 1) (ls : List Str)
    (hfile : (file.drop (windowBefore e b).offs).take (windowBefore e b).len ++ frag =
      h ++ '\n' :: (joinLines ls ++ t))
    (hh : '\n' ∉ h) (hn : nul ∉ h) (hls : ∀ l ∈ ls, IsLine l ∧ Scans cb pmask codeOffs l)
    (ht : '\n' ∉ t) (htn : nul ∉ t) :
    ∃ ret b' a' z, readWindow cb pmask codeOffs file (windowBefore e b) b a = .ok (ret, b', a') ∧
      0 ≤ ret ∧ Delivered cb pmask codeOffs ls.reverse a a' ∧ b'.ibuf.length = pipeBuf ∧
      b'.ibuf = h ++ '\n' :: (List.replicate (joinLines ls).length nul ++ (t ++ nul :: z)) ∧
      b'.ilen = h.length + 1 + t.length + k ∧ (k = 0 → ∃ n, nul :: z = List.replicate n nul) := by
  have hmax : b.maxRead = pipeBuf - 1 - (frag.length + k) := by
    unfold ReadBuf.maxRead
    rw [hc.length, hc.ilen]
  have hilen := hc.ilen
  have hwlen : (windowBefore e b).len = min e b.maxRead := rfl
  have hwoffs : (windowBefore e b).offs = e - min e b.maxRead := rfl
  generalize hin : (file.drop (windowBefore e b).offs).take (windowBefore e b).len = input at hfile
  have hlen : input.length = (windowBefore e b).len := by
    rw [← hin, List.length_take, List.length_drop]
    omega
  obtain ⟨z, hread, hbuf, hclear⟩ := readWindow_carried cb pmask codeOffs a hc hin hlen (by omega) (by omega)
  have htext : input ++ (frag ++ nul :: z) = h ++ '\n' :: (joinLines ls ++ (t ++ nul :: z)) := by
    rw [← List.append_assoc, hfile]
    simp
  have hsum : input.length + frag.length = h.length + 1 + (joinLines ls).length + t.length := by
    have := congrArg List.length hfile
    simp at this
    omega
  obtain ⟨t', a', hparse, hdel⟩ := parseReverse_lines
    (b.ilen + input.length) input.length (a := a) (y := t ++ nul :: z) hcb hh hn hls
    (by rw [cstr_append_nul htn]; exact ht) (by omega)
  rw [htext, hparse] at hread
  refine ⟨t', _, a', z, hread, Int.natCast_nonneg t', hdel, ?_, rfl, ?_, hclear⟩
  · rw [htext] at hbuf
    simpa using hbuf
  · simp only
    omega

/-- Windows one after the other, until the start of the file is reached. -/
inductive ReadsBack (cb : ParseCb σ) (pmask : PMask) (codeOffs : Ptr) (file : Str) :
    Nat → ReadBuf → σ → σ → Prop
  | done {b : ReadBuf} {a : σ} : ReadsBack cb pmask codeOffs file 0 b a a
  | call {e : Nat} {b b' : ReadBuf} {a a₁ a' : σ} {ret : Int} : 0 < e →
      readWindow cb pmask codeOffs file (windowBefore e b) b a = .ok (ret, b', a₁) → 0 ≤ ret →
      ReadsBack cb pmask codeOffs file (windowBefore e b).offs b' a₁ a' →
      ReadsBack cb pmask codeOffs file e b a a'

/-- The windows behind the first one. In front of `e` there are complete lines and the start of the
one whose end is carried. -/
theorem readsBack_from {e : Nat} {l₀ h : Str} {ls : List Str} (hcb : cb.Returns)
    (hls : ∀ l ∈ l₀ :: ls, IsLine l ∧ l.length + 1 + k < pipeBuf - 1)
    (hscan : ∀ l ∈ ls, Scans cb pmask codeOffs l) (hle : e ≤ file.length)
    (hfile : file.take e = (joinLines (l₀ :: ls)).take e)
    (hfrag : (joinLines (l₀ :: ls)).drop e = h ++ ['\n']) (hh : IsLine h)
    (hroom : h.length + 1 + k < pipeBuf - 1) (hc : Carries k (h ++ ['\n']) b) :
    ∃ a', ReadsBack cb pmask codeOffs file e b a a' ∧ Delivered cb pmask codeOffs ls.reverse a a' := by
  induction e using Nat.strongRecOn generalizing ls h b a with
  | _ e ih =>
    by_cases h0 : e = 0
    · subst h0
      rw [List.drop_zero, joinLines_cons] at hfrag
      have hnil := (line_unique (hls l₀ List.mem_cons_self).1 hh hfrag).2
      obtain rfl : ls = [] := by
        cases ls with
        | nil => rfl
        | cons l ls => simp at hnil
      exact ⟨a, .done, rfl⟩
    · have hmax : b.maxRead = pipeBuf - 1 - (h.length + 1 + k) := by
        unfold ReadBuf.maxRead
        rw [hc.length, hc.ilen]
        simp
      have hwlen : (windowBefore e b).len = min e b.maxRead := rfl
      have hwoffs : (windowBefore e b).offs = e - min e b.maxRead := rfl
      generalize hw : (windowBefore e b).offs = e' at *
      have hlt : e < (joinLines (l₀ :: ls)).length := by
        by_contra hge
        rw [List.drop_of_length_le (by omega)] at hfrag
        simp at hfrag
      obtain ⟨ls', ls₂, h', hrev, hh', ⟨l, hl, hhl⟩, hin, hd, hd'⟩ :=
        cut_lines (k := e') (fun l (hl : l ∈ l₀ :: ls) => (hls l hl).1) (by omega)
      have htext : (file.drop e').take (windowBefore e b).len ++ (h ++ ['\n']) =
          h' ++ '\n' :: (joinLines ls₂ ++ []) := by
        have hcut : (file.drop e').take (windowBefore e b).len =
            ((joinLines (l₀ :: ls)).take e).drop e' := by
          rw [← hfile, List.drop_take]
          congr 1
          omega
        have htake : e' ≤ ((joinLines (l₀ :: ls)).take e).length := by
          rw [List.length_take]
          omega
        rw [hcut, ← hfrag, List.append_nil, ← hd, ← List.drop_append_of_le_length htake,
          List.take_append_drop]
      have hls' : l₀ :: ls' ⊆ l₀ :: ls := by
        rw [hrev]
        exact List.cons_subset_cons l₀ (List.subset_append_left ls' ls₂)
      obtain ⟨ret, b', a₁, z, hread, hret, hdel, hbuf, heq, hilen, hclear⟩ :=
        readWindow_lines (a := a) hcb hc (by omega) hle (by simp; omega) _ (hw ▸ htext) hh'.1 hh'.2
          (fun x hx => ⟨(hls x (by simp [hrev, hx])).1, hscan x (by simp [hrev, hx])⟩)
          (by simp) (by simp)
      have hc' : Carries k (h' ++ ['\n']) b' := by
        refine ⟨hbuf, by simpa using hilen, ?_, fun h0 => ?_⟩
        · refine ⟨List.replicate (joinLines ls₂).length nul ++ z, ?_⟩
          rw [heq, List.nil_append, replicate_nul_cons]
          simp
        · obtain ⟨n, hn⟩ := hclear h0
          refine ⟨(joinLines ls₂).length + n, ?_⟩
          rw [heq, List.nil_append, hn, List.replicate_add]
          simp
      have hroom' : h'.length + 1 + k < pipeBuf - 1 := by
        have := (hls l hl).2
        omega
      have hfile' : file.take e' = (joinLines (l₀ :: ls')).take e' := by
        have hpre : joinLines (l₀ :: ls) = joinLines (l₀ :: ls') ++ joinLines ls₂ := by
          rw [hrev, ← List.cons_append, joinLines_append]
        have hshort : file.take e' = (file.take e).take e' := by
          rw [List.take_take, Nat.min_eq_left (by omega)]
        rw [hshort, hfile, List.take_take, Nat.min_eq_left (by omega), hpre,
          List.take_append_of_le_length hin]
      obtain ⟨a', hback, hdel'⟩ := ih e' (by omega) (a := a₁)
        (fun x hx => hls x (hls' hx)) (fun x hx => hscan x (by simp [hrev, hx])) (by omega) hfile'
        hd' hh' hroom' hc'
      refine ⟨a', .call (by omega) hread hret (hw ▸ hback), ?_⟩
      rw [hrev, List.reverse_append]
      exact hdel.append hdel'

theorem carries_init : Carries 0 [] ReadBuf.init :=
  ⟨by simp [ReadBuf.init], rfl, ⟨List.replicate (pipeBuf - 1) nul, rfl⟩, fun _ => ⟨pipeBuf, rfl⟩⟩

/-- **Reverse parsing** of complete lines behind a first one and in front of a tail, all short enough
to stand in the buffer together: each line but the first is delivered once, the last one first. -/
theorem readsBack_lines {l₀ tail : Str} {ls : List Str} (hcb : cb.Returns)
    (hls : ∀ l ∈ l₀ :: ls, IsLine l ∧ l.length + 1 + tail.length < pipeBuf - 1)
    (hscan : ∀ l ∈ ls, Scans cb pmask codeOffs l) (ht : '\n' ∉ tail) (htn : nul ∉ tail)
    (hfile : file = joinLines (l₀ :: ls) ++ tail) :
    ∃ a', ReadsBack cb pmask codeOffs file file.length .init a a' ∧
      Delivered cb pmask codeOffs ls.reverse a a' := by
  have hmax : ReadBuf.init.maxRead = pipeBuf - 1 := by simp [ReadBuf.maxRead, ReadBuf.init]
  have hwlen : (windowBefore file.length .init).len = min file.length (pipeBuf - 1) := by
    rw [← hmax]
    rfl
  have hwoffs : (windowBefore file.length .init).offs =
      file.length - min file.length (pipeBuf - 1) := by
    rw [← hmax]
    rfl
  have hpos : 0 < file.length := by simp [hfile]
  have hall : (file.drop (windowBefore file.length .init).offs).take
      (windowBefore file.length .init).len ++ [] =
        file.drop (windowBefore file.length .init).offs := by
    rw [List.append_nil, List.take_of_length_le]
    rw [List.length_drop]
    omega
  generalize hw : (windowBefore file.length .init).offs = e' at *
  by_cases h0 : e' = 0
  · -- all of the file is in the first window
    subst h0
    have hl₀ := (hls l₀ List.mem_cons_self).1
    obtain ⟨ret, b', a', z, hread, hret, hdel, -⟩ :=
      readWindow_lines (a := a) hcb carries_init hpos le_rfl (by decide)
        ls (h := l₀) (t := tail) (by rw [hw, hall]; simp [hfile]) hl₀.1 hl₀.2
        (fun x hx => ⟨(hls x (by simp [hx])).1, hscan x hx⟩) ht htn
    refine ⟨a', .call hpos hread hret ?_, hdel⟩
    rw [hw]
    exact .done
  · have hlen : file.length = (joinLines (l₀ :: ls)).length + tail.length := by
      rw [hfile, List.length_append]
    have htail := (hls l₀ List.mem_cons_self).2
    obtain ⟨ls', ls₂, h, hrev, hh, ⟨l, hl, hhl⟩, hin, hd, hd'⟩ :=
      cut_lines (k := e') (fun l (hl : l ∈ l₀ :: ls) => (hls l hl).1) (by omega)
    have hshort := (hls l hl).2
    have htext : file.drop e' = h ++ '\n' :: (joinLines ls₂ ++ tail) := by
      rw [hfile, List.drop_append_of_le_length (by omega), hd]
      simp
    obtain ⟨ret, b', a₁, z, hread, hret, hdel, hbuf, heq, hilen, hclear⟩ :=
      readWindow_lines (a := a) hcb carries_init hpos le_rfl (by decide) ls₂ (h := h)
        (t := tail) (by rw [hw, hall, htext]) hh.1 hh.2
        (fun x hx => ⟨(hls x (by simp [hrev, hx])).1, hscan x (by simp [hrev, hx])⟩) ht htn
    -- the window is full, so there is a complete line in it
    obtain ⟨m, hm⟩ : ∃ m, (joinLines ls₂).length = m + 1 := by
      have := congrArg List.length htext
      simp at this
      exact ⟨(joinLines ls₂).length - 1, by omega⟩
    have hc' : Carries tail.length (h ++ ['\n']) b' := by
      refine ⟨hbuf, by simpa using hilen, ?_, fun h0 => ?_⟩
      · refine ⟨List.replicate m nul ++ (tail ++ nul :: z), ?_⟩
        rw [heq, hm, List.replicate_succ]
        simp
      · obtain ⟨n, hn⟩ := hclear rfl
        obtain rfl := List.length_eq_zero_iff.mp h0
        refine ⟨(joinLines ls₂).length + n, ?_⟩
        rw [heq, hn, List.replicate_add]
        simp
    have hfile' : file.take e' = (joinLines (l₀ :: ls')).take e' := by
      have hpre : file = joinLines (l₀ :: ls') ++ (joinLines ls₂ ++ tail) := by
        rw [hfile, hrev, ← List.cons_append, joinLines_append, List.append_assoc]
      rw [hpre, List.take_append_of_le_length hin]
    have hsub : l₀ :: ls' ⊆ l₀ :: ls := by
      rw [hrev]
      exact List.cons_subset_cons l₀ (List.subset_append_left ls' ls₂)
    obtain ⟨a', hback, hdel'⟩ := readsBack_from (k := tail.length) (a := a₁) hcb
      (fun x hx => hls x (hsub hx)) (fun x hx => hscan x (hrev ▸ List.mem_append_left ls₂ hx)) (by omega)
      hfile' hd' hh (by omega) hc'
    refine ⟨a', .call hpos hread hret (hw ▸ hback), ?_⟩
    rw [hrev, List.reverse_append]
    exact hdel.append hdel'

/-- The windows and the callbacks decide what comes out. -/
theorem ReadsBack.unique {e : Nat} {a' a'' : σ} (h : ReadsBack cb pmask codeOffs file e b a a')
    (h' : ReadsBack cb pmask codeOffs file e b a a'') : a' = a'' := by
  induction h with
  | done =>
    cases h' with
    | done => rfl
    | call h0 => exact absurd h0 (Nat.lt_irrefl 0)
  | call h0 hread _ _ ih =>
    cases h' with
    | done => exact absurd h0 (Nat.lt_irrefl 0)
    | call _ hread' _ hback' =>
      cases hread.symm.trans hread'
      exact ih hback'

end Windows

/-! ## The calls of `mf` -/

section Trace

variable {σ : Type} {pmask : PMask} {codeOffs : Ptr}

/-- The callbacks, with a list of the arguments that `mf` was called with. -/
def ParseCb.traced (cb : ParseCb σ) : ParseCb (σ × List (Ptr × SizeT)) where
  mf := cb.mf.map fun mf pp memAddr memSize codeOffs codeAddr stackOffs a =>
    (mf pp memAddr memSize codeOffs codeAddr stackOffs a.1).map (·, a.2 ++ [(memAddr, memSize)])
  ff := cb.ff.map fun ff memAddr a => (ff memAddr a.1).map (·, a.2)
  lf := cb.lf.map fun lf libName a => (lf libName a.1).map (·, a.2)
  sf := cb.sf.map fun sf stackEnd a => (sf stackEnd a.1).map (·, a.2)

/-- The address and the size of an 'm' line. -/
def mallocOf (cb : ParseCb σ) (pmask : PMask) (codeOffs : Ptr) (l : Str) : Option (Ptr × SizeT) :=
  match scanMsg cb pmask codeOffs l 0 l.length with
  | .ok (.mf _ memAddr memSize _ _ _) => some (memAddr, memSize)
  | _ => none

variable {cb : ParseCb σ}

theorem scanMsg_traced {ibuf : Str} {i j : Nat} :
    scanMsg cb.traced pmask codeOffs ibuf i j = scanMsg cb pmask codeOffs ibuf i j := by
  simp [scanMsg, ParseCb.traced]

/-- The arguments of a call of `mf`. -/
def Call.malloc? : Call → Option (Ptr × SizeT)
  | .mf _ memAddr memSize _ _ _ => some (memAddr, memSize)
  | _ => none

theorem traced_call (call : Call) (hmf : call.malloc?.isSome → cb.mf.isSome) (a : σ)
    (tr : List (Ptr × SizeT)) :
    cb.traced.call call (a, tr) = (cb.call call a).map (·, tr ++ call.malloc?.toList) := by
  cases call with
  | mf pp memAddr memSize codeOffs codeAddr stackOffs =>
    obtain ⟨mf, hmf⟩ := Option.isSome_iff_exists.mp (hmf rfl)
    simp only [ParseCb.call, ParseCb.traced, hmf, Option.map_some]
    rfl
  | ff memAddr =>
    unfold ParseCb.call ParseCb.traced
    cases cb.ff <;> simp [Call.malloc?, Except.map]
  | lf libName =>
    unfold ParseCb.call ParseCb.traced
    cases cb.lf <;> simp [Call.malloc?, Except.map]
  | sf stackEnd =>
    unfold ParseCb.call ParseCb.traced
    cases cb.sf <;> simp [Call.malloc?, Except.map]
  | skip => simp [ParseCb.call, Call.malloc?, Except.map]

theorem traced_returns (hcb : cb.Returns) : cb.traced.Returns := by
  rintro call ⟨a, tr⟩
  by_cases hmf : call.malloc?.isSome → cb.mf.isSome
  · obtain ⟨a', ha⟩ := hcb call a
    exact ⟨_, by rw [traced_call call hmf, ha]; rfl⟩
  · -- without the callback nothing is called
    obtain ⟨hcall, hnone⟩ := Classical.not_imp.mp hmf
    rw [Bool.not_eq_true, Option.isSome_eq_false_iff, Option.isNone_iff_eq_none] at hnone
    cases call with
    | mf => exact ⟨(a, tr), by simp [ParseCb.call, ParseCb.traced, hnone]⟩
    | _ => cases hcall

/-- `mf` is called for an 'm' line only if there is one. -/
theorem scanMsg_mf {ibuf : Str} {i j : Nat} {call : Call}
    (h : scanMsg cb pmask codeOffs ibuf i j = .ok call) (hcall : call.malloc?.isSome) :
    cb.mf.isSome := by
  unfold scanMsg at h
  split at h
  · cases h
  · split at h
    · assumption
    · cases h
      cases hcall
  · split at h
    · cases hv : scanAt scanPtr ibuf (i + 1) with
      | error e =>
        rw [hv] at h
        cases h
      | ok v =>
        rw [hv] at h
        cases h
        cases hcall
    · cases h
      cases hcall
  · split at h
    · unfold scanLib at h
      dsimp only at h
      split at h <;> cases h
      cases hcall
    · cases h
      cases hcall
  · split at h
    · unfold scanStackEnd at h
      obtain ⟨stackEnd, -, h⟩ := Run.bind_eq_ok.mp h
      cases h
      split at hcall <;> cases hcall
    · cases h
      cases hcall
  · cases h
    cases hcall

/-- A line that is delivered is in the trace exactly if it is an 'm' line. -/
theorem delivered_traced {ls : List Str} {a a' : σ} {tr tr' : List (Ptr × SizeT)}
    (h : Delivered cb.traced pmask codeOffs ls (a, tr) (a', tr')) :
    tr' = tr ++ ls.filterMap (mallocOf cb pmask codeOffs) := by
  induction ls generalizing a tr with
  | nil =>
    cases h
    simp
  | cons l ls ih =>
    obtain ⟨call, buf, k, ⟨a₁, tr₁⟩, hs, hc, h⟩ := h
    rw [scanMsg_traced] at hs
    have hin : (call.inBuf buf k).malloc? = call.malloc? := by cases call <;> rfl
    have hl : mallocOf cb pmask codeOffs l = call.malloc? := by
      unfold mallocOf
      rw [hs]
      cases call <;> rfl
    rw [traced_call _ (by rw [hin]; exact scanMsg_mf hs)] at hc
    have htr₁ : tr₁ = tr ++ call.malloc?.toList := by
      cases hcall : cb.call (call.inBuf buf k) a with
      | error e =>
        rw [hcall] at hc
        cases hc
      | ok a₂ =>
        rw [hcall, hin] at hc
        cases hc
        rfl
    rw [ih h, htr₁, List.filterMap_cons, hl]
    cases call.malloc? <;> simp

/-- **Reverse parsing of a discovery file.** Behind the 'S' line there are lines that can be scanned,
and maybe a line without a line break. All are shorter than half of the buffer. Then `mf` is called
for the 'm' lines, the last one first, and for nothing else. -/
theorem readsBack_delivers {s tail : Str} {ls : List Str} (hcb : cb.Returns)
    (hls : ∀ l ∈ ('S' :: s) :: ls, IsLine l ∧ (l ++ ['\n']).length < pipeBuf / 2)
    (hscan : ∀ l ∈ ls, Scans cb pmask codeOffs l) (ht : '\n' ∉ tail ∧ nul ∉ tail)
    (htlen : tail.length < pipeBuf / 2) (a : σ) :
    ∃ a', ReadsBack cb.traced pmask codeOffs (joinLines (('S' :: s) :: ls) ++ tail)
      (joinLines (('S' :: s) :: ls) ++ tail).length .init (a, [])
      (a', (ls.filterMap (mallocOf cb pmask codeOffs)).reverse) := by
  have hhalf : pipeBuf / 2 + pipeBuf / 2 = pipeBuf := by decide
  have hshort : ∀ l ∈ ('S' :: s) :: ls, IsLine l ∧ l.length + 1 + tail.length < pipeBuf - 1 := by
    intro l hl
    obtain ⟨hline, hlen⟩ := hls l hl
    rw [List.length_append, List.length_singleton] at hlen
    exact ⟨hline, by omega⟩
  have hscan' : ∀ l ∈ ls, Scans cb.traced pmask codeOffs l := by
    intro l hl
    obtain ⟨call, hcall⟩ := hscan l hl
    exact ⟨call, scanMsg_traced.trans hcall⟩
  obtain ⟨⟨a', tr⟩, hback, hdel⟩ := readsBack_lines (a := (a, [])) (traced_returns hcb) hshort hscan'
    ht.1 ht.2 rfl
  have htr := delivered_traced hdel
  rw [List.nil_append, List.filterMap_reverse] at htr
  exact ⟨a', htr ▸ hback⟩

end Trace

/-- The mask of `postproc_stage1234`: `PARSE_S`. -/
def PMask.onlyS : PMask := ⟨true, false, false⟩

/-- Callbacks that do nothing. -/
def ParseCb.idle : ParseCb Unit :=
  ⟨some fun _ _ _ _ _ _ a => .ok a, some fun _ a => .ok a, none, some fun _ a => .ok a⟩

def sampleLines : List Str :=
  ["m0x10;s8;c0x400123".toList, "f0x10".toList, "p0x7f00".toList, "m0x20;s16;c0x400456".toList]

theorem idle_returns : ParseCb.idle.Returns := by
  rintro (_ | _ | _ | _ | _) a <;> exact ⟨a, rfl⟩

/-- More lines than two windows hold. -/
def manyLines : List Str := (List.replicate 200 sampleLines).flatten

theorem mem_manyLines {l : Str} (h : l ∈ manyLines) : l ∈ sampleLines := by
  obtain ⟨ls, hls, hl⟩ := List.mem_flatten.mp h
  exact List.eq_of_mem_replicate hls ▸ hl

theorem readsBack_delivers_example :
    2 * pipeBuf < (joinLines manyLines).length ∧
    ReadsBack ParseCb.idle.traced .onlyS 0
      (joinLines ("S0x7ffc".toList :: manyLines) ++ "m0x3".toList)
      (joinLines ("S0x7ffc".toList :: manyLines) ++ "m0x3".toList).length .init ((), [])
      ((), (List.replicate 200 [(0x20, 16), (0x10, 8)]).flatten) := by
  refine ⟨by decide +kernel, ?_⟩
  have hls : ∀ l ∈ ('S' :: "0x7ffc".toList) :: manyLines,
      IsLine l ∧ (l ++ ['\n']).length < pipeBuf / 2 := by
    intro l hl
    rcases List.mem_cons.mp hl with rfl | hl
    · decide
    · have hsample : ∀ l ∈ sampleLines, IsLine l ∧ (l ++ ['\n']).length < pipeBuf / 2 := by decide
      exact hsample l (mem_manyLines hl)
  have hscan : ∀ l ∈ manyLines, Scans ParseCb.idle .onlyS 0 l := by
    intro l hl
    have hl := mem_manyLines hl
    fin_cases hl <;> exact ⟨_, rfl⟩
  have hcalls : (manyLines.filterMap (mallocOf ParseCb.idle .onlyS 0)).reverse =
      (List.replicate 200 [(0x20, 16), (0x10, 8)]).flatten := by
    have hsample : sampleLines.filterMap (mallocOf ParseCb.idle .onlyS 0) =
        [(0x10, 8), (0x20, 16)] := rfl
    rw [manyLines, List.filterMap_flatten, List.map_replicate, hsample, List.reverse_flatten,
      List.map_replicate, List.reverse_replicate]
    rfl
  obtain ⟨a', h⟩ := readsBack_delivers idle_returns hls hscan
    (show '\n' ∉ "m0x3".toList ∧ nul ∉ "m0x3".toList by decide) (by decide) ()
  rw [hcalls] at h
  exact h

/-! ## The loop of `postproc_stage1234` -/

section Loop

variable {σ : Type} {cb : ParseCb σ} {pmask : PMask} {codeOffs : Ptr} {argp : Bool} {file : Str}

/-- `read_dynmem_buf` is called until it returns a negative number. -/
inductive ReadsAll (cb : ParseCb σ) (pmask : PMask) (codeOffs : Ptr) (argp : Bool) (file : Str) :
    ReverseBuf → σ → σ → Prop
  | stop {b b' : ReverseBuf} {a a' : σ} {ret : Int} : ret < 0 →
      readReverse cb pmask codeOffs argp file b a = .ok (ret, b', a') →
      ReadsAll cb pmask codeOffs argp file b a a'
  | call {b b' : ReverseBuf} {a a₁ a' : σ} {ret : Int} : 0 ≤ ret →
      readReverse cb pmask codeOffs argp file b a = .ok (ret, b', a₁) →
      ReadsAll cb pmask codeOffs argp file b' a₁ a' → ReadsAll cb pmask codeOffs argp file b a a'

/-- The window that is chosen in a file of less than `2 ^ 32` bytes. -/
theorem seekWindow_before {e : Nat} {b : ReadBuf} (h0 : 0 < e) (he : e < 2 ^ 32) :
    ∃ f, seekWindow e b.maxRead = some (windowBefore e b, f) ∧ f ≠ reverseFst ∧
      (f = (windowBefore e b).offs ∨ f ≤ 0 ∧ (windowBefore e b).offs = 0) := by
  rw [seekWindow_small h0 he]
  unfold windowBefore
  split
  · rename_i hm
    refine ⟨_, by rw [Nat.min_eq_right hm.le], ?_, .inl ?_⟩
    · unfold reverseFst
      omega
    · simp only
      omega
  · rename_i hm
    exact ⟨_, by rw [Nat.min_eq_left (by omega), Nat.sub_self], by decide, .inr ⟨by decide, by simp; omega⟩⟩

/-- A call that chooses a window. -/
theorem readReverse_window {b b₁ : ReverseBuf} {buf : ReadBuf} {w : Window} {a a₁ a₂ : σ} {f ret : Int}
    (hstart : readStart cb argp file b a = .ok (none, b₁, a₁)) (hmax : b.maxRead = b₁.maxRead)
    (hseek : seekWindow b₁.fdOffs b₁.maxRead = some (w, f))
    (hread : readWindow cb pmask codeOffs file w b₁.toReadBuf a₁ = .ok (ret, buf, a₂)) :
    readReverse cb pmask codeOffs argp file b a =
      .ok (ret, ⟨buf, f, min (w.offs + w.len) file.length⟩, a₂) := by
  unfold readReverse
  simp only [hstart, hmax, hseek, hread, bind, Except.bind, pure, Except.pure]

/-- The loop behind the scan of the file start. -/
theorem readsAll_of_back {e : Nat} {b : ReadBuf} {a a' : σ} {f : Int} {pos : Nat}
    (h : ReadsBack cb pmask codeOffs file e b a a') (he : e < 2 ^ 32) (hf : f ≠ reverseFst)
    (hfe : f = e ∨ f ≤ 0 ∧ e = 0) : ReadsAll cb pmask codeOffs argp file ⟨b, f, pos⟩ a a' := by
  induction h generalizing f pos with
  | @done b a =>
    have hread : readReverse cb pmask codeOffs argp file ⟨b, f, pos⟩ a =
        .ok (-1, ⟨b, f, pos⟩, a) := by
      have hseek : ∀ m, seekWindow f m = none := fun m => if_pos (by omega)
      unfold readReverse readStart
      rw [if_neg hf]
      simp [hseek, bind, Except.bind, pure, Except.pure]
    exact .stop (by decide) hread
  | @call e b b' a a₁ a' ret h0 hread hret _ ih =>
    obtain ⟨f', hseek, hne, hf'⟩ := seekWindow_before (b := b) h0 he
    obtain rfl : f = e := by omega
    have hlt : (windowBefore e b).offs < 2 ^ 32 := by
      unfold windowBefore
      simp only
      omega
    have hstart : readStart cb argp file ⟨b, (e : Int), pos⟩ a = .ok (none, ⟨b, (e : Int), pos⟩, a) :=
      if_neg hf
    exact .call hret (readReverse_window hstart rfl hseek hread) (ih hlt hne hf')

/-- The scan of the 'S' line. -/
theorem readFileStart_stackEnd (argp : Bool) {stackEnd : Ptr} {rest : Str} {a a₀ : σ}
    (hfile : file = 'S' :: printHex stackEnd ++ '\n' :: rest)
    (hlen : (printHex stackEnd).length + 2 ≤ pipeBuf - 1)
    (hcall : cb.call (if stackEnd = 0 then .skip else .sf stackEnd) a = .ok a₀) :
    readStart cb argp file .init a =
      .ok (none, ⟨ReadBuf.init, file.length, file.length⟩, a₀) := by
  have hmax : ReverseBuf.init.maxRead = pipeBuf - 1 := by
    simp [ReadBuf.maxRead, ReverseBuf.init, ReadBuf.init]
  -- the window at the start of the file begins with the line
  obtain ⟨r, hin⟩ : ∃ r, file.take (pipeBuf - 1) = 'S' :: printHex stackEnd ++ '\n' :: r := by
    refine ⟨rest.take (pipeBuf - 1 - ((printHex stackEnd).length + 2)), ?_⟩
    have hline : ('S' :: printHex stackEnd ++ ['\n']).length = (printHex stackEnd).length + 2 := by
      simp
    rw [hfile, show 'S' :: printHex stackEnd ++ '\n' :: rest =
      ('S' :: printHex stackEnd ++ ['\n']) ++ rest by simp, List.take_append, hline,
      List.take_of_length_le (by omega)]
    simp
  have hinlen : (file.take (pipeBuf - 1)).length ≤ pipeBuf := by
    rw [List.length_take]
    omega
  have hstore : store ReverseBuf.init.ibuf 0 (file.take (pipeBuf - 1)) =
      .ok (file.take (pipeBuf - 1) ++ List.replicate (pipeBuf - (file.take (pipeBuf - 1)).length) nul) := by
    have hbuf : ReverseBuf.init.ibuf = List.replicate pipeBuf nul := rfl
    rw [store_zero (by rw [hbuf, List.length_replicate]; exact hinlen), hbuf, List.drop_replicate]
  have hclear : memset (file.take (pipeBuf - 1) ++
      List.replicate (pipeBuf - (file.take (pipeBuf - 1)).length) nul) 0
        (file.take (pipeBuf - 1)).length = .ok ReadBuf.init.ibuf := by
    have hbuf : ReadBuf.init.ibuf = List.replicate pipeBuf nul := rfl
    unfold memset
    rw [store_zero (by simp), List.length_replicate, List.drop_left' rfl, ← List.replicate_add, hbuf,
      Nat.add_sub_cancel' hinlen]
  have hscan : ∀ z, scanFileStart (file.take (pipeBuf - 1) ++ z) = some stackEnd := by
    intro z
    have hptr := scanPtr_printHex stackEnd (t := '\n' :: (r ++ z)) (noDigit_cons.mpr (by decide))
      (by simp)
    rw [hin]
    simp only [List.cons_append, List.append_assoc, scanFileStart, scanChar]
    simp [nul, hptr]
  have hne : file.take (pipeBuf - 1) ≠ [] := by simp [hin]
  unfold readStart readFileStart
  rw [if_pos (show ReverseBuf.init.fdOffs = reverseFst from rfl), hmax]
  have hdrop : file.drop ReverseBuf.init.pos = file := List.drop_zero
  rw [hdrop]
  generalize file.take (pipeBuf - 1) = input at *
  dsimp only
  rw [if_neg (by simp [hne]), hstore]
  simp only [Run.ok_bind, hscan, hcall, hclear]
  rfl

/-- **The loop of `postproc_stage1234`** over a discovery file of less than `2 ^ 32` bytes: the
callback for the stack end, then `mf` for each 'm' line, the last one first. -/
theorem readsAll_delivers {stackEnd : Ptr} {tail : Str} {ls : List Str} (hcb : cb.Returns)
    (hls : ∀ l ∈ ('S' :: printHex stackEnd) :: ls, IsLine l ∧ (l ++ ['\n']).length < pipeBuf / 2)
    (hscan : ∀ l ∈ ls, Scans cb pmask codeOffs l) (ht : '\n' ∉ tail ∧ nul ∉ tail)
    (htlen : tail.length < pipeBuf / 2)
    (hfile : file = joinLines (('S' :: printHex stackEnd) :: ls) ++ tail)
    (hsize : file.length < 2 ^ 32) (a : σ) :
    ∃ a₀ a', cb.call (if stackEnd = 0 then .skip else .sf stackEnd) a = .ok a₀ ∧
      ReadsAll cb.traced pmask codeOffs argp file .init (a, [])
        (a', (ls.filterMap (mallocOf cb pmask codeOffs)).reverse) := by
  obtain ⟨a₀, hcall⟩ := hcb (if stackEnd = 0 then .skip else .sf stackEnd) a
  obtain ⟨a', hback⟩ := readsBack_delivers hcb hls hscan ht htlen a₀
  rw [← hfile] at hback
  refine ⟨a₀, a', hcall, ?_⟩
  have hcall' : cb.traced.call (if stackEnd = 0 then .skip else .sf stackEnd) (a, []) =
      .ok (a₀, []) := by
    have hnone : (if stackEnd = 0 then Call.skip else .sf stackEnd).malloc? = none := by
      split <;> rfl
    rw [traced_call _ (fun h => by rw [hnone] at h; cases h), hcall, hnone]
    rfl
  have hline : (printHex stackEnd).length + 2 ≤ pipeBuf - 1 := by
    have := (hls _ List.mem_cons_self).2
    have hhalf : pipeBuf / 2 ≤ pipeBuf - 1 := by decide
    simp at this
    omega
  have hfirst : file = 'S' :: printHex stackEnd ++ '\n' :: (joinLines ls ++ tail) := by
    rw [hfile]
    simp
  have hstart := readFileStart_stackEnd argp hfirst hline hcall'
  generalize he : file.length = e at hback
  generalize (a', (ls.filterMap (mallocOf cb pmask codeOffs)).reverse) = r at hback ⊢
  generalize (a₀, ([] : List (Ptr × SizeT))) = r₀ at hback hstart
  cases hback with
  | done => simp [hfile] at he
  | @call _ _ b' _ a₁ _ ret h0 hread hret hrest =>
    obtain ⟨f, hseek, hne, hf⟩ := seekWindow_before (b := ReadBuf.init) h0 (he ▸ hsize)
    have hlt : (windowBefore e .init).offs < 2 ^ 32 := by
      unfold windowBefore
      simp only
      omega
    exact .call hret (readReverse_window hstart rfl (he ▸ hseek) hread)
      (readsAll_of_back hrest hlt hne hf)

end Loop

end UgTrain
