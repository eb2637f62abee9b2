import UgTrain.FifoParser

/-!
# Lemmas about the FIFO parser

The receive buffer holds a text `c` and is `nul` behind it (`padded n c`). On such a buffer the
message loop is a function of the text:

* `parseLoop_none`: without a complete line nothing happens.
* `parseLoop_line`: a complete line that can be scanned is taken off the front
  (`parseLoop_line_append`: whatever is behind the text).
* `parseLoop_err`: a line that cannot be scanned ends the loop. The buffer is cleared up to
  `tmpIlen` only.

`parseLoop_acc`: on any buffer, what each callback keeps the whole loop keeps.
-/

namespace UgTrain

open CLib

/-- The text of a complete line: up to its line break, and no end of the C string in it. -/
def IsLine (l : Str) : Prop := '\n' ∉ l ∧ nul ∉ l

instance (l : Str) : Decidable (IsLine l) := inferInstanceAs (Decidable (_ ∧ _))

theorem newline_ne_nul : '\n' ≠ nul := by decide

/-- A text either has no complete line, or a first one. -/
theorem line_cases (c : Str) :
    strchr c '\n' = none ∨ ∃ l c', c = l ++ '\n' :: c' ∧ IsLine l := by
  cases h : strchr c '\n' with
  | none => exact .inl rfl
  | some i =>
    obtain ⟨l, c', rfl, -, hl⟩ := (strchr_eq_some newline_ne_nul).mp h
    exact .inr ⟨l, c', rfl, hl⟩

theorem strchr_line {l c' : Str} (hl : IsLine l) :
    strchr (l ++ '\n' :: c') '\n' = some l.length :=
  strchr_append_cons _ _ hl.1 hl.2 newline_ne_nul

/-- The first line of a text is unique. -/
theorem line_unique {l l' c c' : Str} (hl : IsLine l) (hl' : IsLine l')
    (h : l ++ '\n' :: c = l' ++ '\n' :: c') : l = l' ∧ c = c' := by
  have hlen : l.length = l'.length := by
    have h1 : strchr (l ++ '\n' :: c) '\n' = some l.length := strchr_line hl
    rw [h, strchr_line hl'] at h1
    exact (Option.some.inj h1).symm
  obtain ⟨rfl, h2⟩ := List.append_inj h hlen
  exact ⟨rfl, (List.cons.inj h2).2⟩

section Loop

variable {σ : Type} {cb : ParseCb σ} {pmask : PMask} {codeOffs : Ptr} {n t : Nat} {a a' : σ}
  {c c' l : Str}

/-- What the callbacks work on changes as the callbacks change it. -/
theorem parseLoop_acc {R : σ → σ → Prop} (hrefl : ∀ a, R a a)
    (htrans : ∀ a b c, R a b → R b c → R a c)
    (hcb : ∀ call a a', cb.call call a = .ok a' → R a a') {res : ParseRes σ}
    (h : parseLoop cb pmask codeOffs c n t a = .ok res) : R a res.acc := by
  induction n using Nat.strongRecOn generalizing c t a with
  | _ n ih =>
    rw [parseLoop] at h
    cases hs : strchr c '\n' with
    | none =>
      rw [hs] at h
      cases h
      exact hrefl a
    | some msgEnd =>
      simp only [hs] at h
      cases hm : scanMsg cb pmask codeOffs c 0 msgEnd with
      | error ppos =>
        simp only [hm] at h
        obtain ⟨ibuf, -, h⟩ := Run.bind_eq_ok.mp h
        cases h
        exact hrefl a
      | ok call =>
        simp only [hm] at h
        obtain ⟨a₁, ha, h⟩ := Run.bind_eq_ok.mp h
        split at h
        · cases h
        · obtain ⟨ibuf₁, -, h⟩ := Run.bind_eq_ok.mp h
          obtain ⟨ibuf₂, -, h⟩ := Run.bind_eq_ok.mp h
          exact htrans _ _ _ (hcb call a a₁ ha) (ih _ (by omega) h)

theorem parseLoop_none (h : strchr c '\n' = none) :
    parseLoop cb pmask codeOffs (padded n c) c.length t a =
      .ok ⟨t, padded n c, c.length, none, a⟩ := by
  rw [parseLoop, strchr_padded newline_ne_nul, h]

/-- **A complete line** that can be scanned is taken off the front, once its callback is called.
Its bytes become `nul` bytes behind the rest; what is behind the text stays. -/
theorem parseLoop_line_append (hl : IsLine l) {z : Str} {call : Call}
    (hs : scanMsg cb pmask codeOffs (l ++ '\n' :: c' ++ z) 0 l.length = .ok call)
    (hc : cb.call call a = .ok a') :
    parseLoop cb pmask codeOffs (l ++ '\n' :: c' ++ z) (l ++ '\n' :: c').length t a =
      parseLoop cb pmask codeOffs (c' ++ (List.replicate (l.length + 1) nul ++ z)) c'.length
        (l.length + 1) a' := by
  have hsplit : l ++ '\n' :: c' = (l ++ ['\n']) ++ c' := by simp
  have hchr : strchr (l ++ '\n' :: c' ++ z) '\n' = some l.length := by
    rw [List.append_assoc, List.cons_append]; exact strchr_line hl
  have hp : (l ++ ['\n']).length = l.length + 1 := by simp
  have hlen : (l ++ '\n' :: c').length = l.length + 1 + c'.length := by simp; omega
  have hadv := advance_append (l ++ ['\n']) c' z
  rw [hp, ← hsplit] at hadv
  rw [parseLoop, hchr]
  simp only [hs, hc, bind, Except.bind]
  rw [if_neg (by omega), hlen, Nat.add_sub_cancel_left]
  simp only [bind, Except.bind] at hadv
  cases hm : memmove (l ++ '\n' :: c' ++ z) 0 (l.length + 1) c'.length with
  | error e => rw [hm] at hadv; cases hadv
  | ok buf =>
    rw [hm] at hadv
    simp only at hadv ⊢
    rw [hadv]

theorem parseLoop_line (hl : IsLine l) (hn : (l ++ '\n' :: c').length ≤ n) {call : Call}
    (hs : scanMsg cb pmask codeOffs (padded n (l ++ '\n' :: c')) 0 l.length = .ok call)
    (hc : cb.call call a = .ok a') :
    parseLoop cb pmask codeOffs (padded n (l ++ '\n' :: c')) (l ++ '\n' :: c').length t a =
      parseLoop cb pmask codeOffs (padded n c') c'.length (l.length + 1) a' := by
  have hlen : (l ++ '\n' :: c').length = l.length + 1 + c'.length := by simp; omega
  have hrep : n - c'.length = l.length + 1 + (n - (l ++ '\n' :: c').length) := by omega
  unfold padded at hs ⊢
  rw [parseLoop_line_append hl hs hc, hrep, List.replicate_add (l.length + 1)]

/-- A line that cannot be scanned: `memset(ibuf, 0, tmp_ilen)`, which leaves the text from
`tmp_ilen` on. -/
theorem parseLoop_err (hl : IsLine l) (ht : t ≤ n) (hn : (l ++ '\n' :: c').length ≤ n) {p : Nat}
    (hs : scanMsg cb pmask codeOffs (padded n (l ++ '\n' :: c')) 0 l.length = .error p) :
    parseLoop cb pmask codeOffs (padded n (l ++ '\n' :: c')) (l ++ '\n' :: c').length t a =
      .ok ⟨0, List.replicate t nul ++ (padded n (l ++ '\n' :: c')).drop t, 0, some p, a⟩ := by
  have hm : memset (padded n (l ++ '\n' :: c')) 0 t =
      .ok (List.replicate t nul ++ (padded n (l ++ '\n' :: c')).drop t) := by
    rw [memset, store, if_pos (by rw [padded_length hn]; simpa using ht)]
    simp
  rw [parseLoop, strchr_padded newline_ne_nul, strchr_line hl]
  simp only [hs, hm, bind, Except.bind, pure, Except.pure]

end Loop

/-! ## The receive buffer -/

/-- **The buffer is well formed**: the bytes behind the rest of the last read are all `nul`, and
there is at least one. -/
structure ReadBuf.WF (b : ReadBuf) : Prop where
  length : b.ibuf.length = pipeBuf
  ilen_lt : b.ilen < pipeBuf
  nul_behind : ∀ i, b.ilen ≤ i → i < pipeBuf → b.ibuf[i]? = some nul

/-- The rest of the last read. -/
def ReadBuf.rest (b : ReadBuf) : Str := b.ibuf.take b.ilen

theorem ReadBuf.WF.eq {b : ReadBuf} (h : b.WF) :
    b = ⟨padded pipeBuf b.rest, b.rest.length⟩ ∧ b.rest.length < pipeBuf := by
  obtain ⟨ibuf, ilen⟩ := b
  have hlen := h.length
  have hlt := h.ilen_lt
  simp only at hlen hlt
  have hr : (ReadBuf.rest ⟨ibuf, ilen⟩).length = ilen := by
    simp [rest]; omega
  rw [hr]
  refine ⟨?_, hlt⟩
  have hbuf := eq_padded hlen (List.take_prefix _ _) (s := ReadBuf.rest ⟨ibuf, ilen⟩)
    (by rw [hr]; exact h.nul_behind)
  rw [← hbuf]

theorem ReadBuf.wf_padded {c : Str} (h : c.length < pipeBuf) :
    ReadBuf.WF ⟨padded pipeBuf c, c.length⟩ := by
  refine ⟨padded_length (by omega), h, fun i hi hi' => ?_⟩
  simp only at hi
  simp only [padded]
  rw [List.getElem?_append_right hi, List.getElem?_replicate, if_pos (by omega)]

theorem ReadBuf.rest_padded (c : Str) : ReadBuf.rest ⟨padded pipeBuf c, c.length⟩ = c := by
  simp [rest, padded]

theorem ReadBuf.init_eq : ReadBuf.init = ⟨padded pipeBuf [], ([] : Str).length⟩ := rfl

section Read

variable {σ : Type} {cb : ParseCb σ} {pmask : PMask} {codeOffs : Ptr} {a : σ} {c input : Str}

theorem readDynmemBuf_nil (b : ReadBuf) :
    readDynmemBuf cb pmask codeOffs b [] a = .ok (-1, b, a) := rfl

/-- What is read stands behind the rest of the last read. -/
theorem readDynmemBuf_padded (hin : input ≠ []) (hlen : c.length + input.length ≤ pipeBuf) :
    readDynmemBuf cb pmask codeOffs ⟨padded pipeBuf c, c.length⟩ input a =
      (parseLoop cb pmask codeOffs (padded pipeBuf (c ++ input)) (c ++ input).length
        input.length a).map fun res => ((res.ret : Int), ⟨res.ibuf, res.ilen⟩, res.acc) := by
  rw [readDynmemBuf, if_neg hin]
  simp only [store_padded hlen, parseDynmemBuf, bind, Except.bind, pure, Except.pure,
    List.length_append]
  cases parseLoop cb pmask codeOffs (padded pipeBuf (c ++ input)) (c.length + input.length)
    input.length a <;> rfl

end Read

end UgTrain
