import UgTrain.HackMsg
import UgTrain.FifoLemmas

/-!
# The receive buffer on any input

After a parse error the message loop clears the buffer up to `tmp_ilen` only, which is by then the
length of the line before. `ErrorClears` says when this is enough, and `run_wf_iff` that the
buffer stays well formed all along a run exactly if it is enough in each call.
-/

namespace UgTrain

open CLib

section Buffer

variable {σ : Type} {cb : ParseCb σ} {pmask : PMask} {codeOffs : Ptr}

/-- The callbacks return. -/
def ParseCb.Returns (cb : ParseCb σ) : Prop := ∀ call a, ∃ a', cb.call call a = .ok a'

/-- The complete line `l` at the start of the text `l ++ '\n' :: c` cannot be scanned. -/
def Malformed (cb : ParseCb σ) (pmask : PMask) (codeOffs : Ptr) (l c : Str) : Prop :=
  IsLine l ∧
    ∃ p, scanMsg cb pmask codeOffs (padded pipeBuf (l ++ '\n' :: c)) 0 l.length = .error p

/-- The complete line `l` at the start of the text `l ++ '\n' :: c` can be scanned. -/
def WellFormed (cb : ParseCb σ) (pmask : PMask) (codeOffs : Ptr) (l c : Str) : Prop :=
  IsLine l ∧
    ∃ call, scanMsg cb pmask codeOffs (padded pipeBuf (l ++ '\n' :: c)) 0 l.length = .ok call

/-- Complete lines that can be scanned, taken off the front of a text: what remains, and the
length of the last one. -/
inductive Accepts (cb : ParseCb σ) (pmask : PMask) (codeOffs : Ptr) :
    Str → Nat → Str → Nat → Prop
  | refl (c : Str) (t : Nat) : Accepts cb pmask codeOffs c t c t
  | line {l c c' : Str} {t t' : Nat} : WellFormed cb pmask codeOffs l c →
      Accepts cb pmask codeOffs c (l.length + 1) c' t' →
      Accepts cb pmask codeOffs (l ++ '\n' :: c) t c' t'

/-- Where a malformed line comes to the front of the text `c`, only `nul` bytes stand behind the
first `t'` bytes; `t'` is the length of the line before it, or `t` if it is the first one. -/
def ErrorClears (cb : ParseCb σ) (pmask : PMask) (codeOffs : Ptr) (c : Str) (t : Nat) : Prop :=
  ∀ l c' t', Accepts cb pmask codeOffs c t (l ++ '\n' :: c') t' →
    Malformed cb pmask codeOffs l c' → ∀ x ∈ (l ++ '\n' :: c').drop t', x = nul

theorem malformed_not_wellFormed {l c : Str} (h : Malformed cb pmask codeOffs l c) :
    ¬ WellFormed cb pmask codeOffs l c := by
  rintro ⟨-, call, hok⟩
  obtain ⟨-, p, herr⟩ := h
  rw [herr] at hok; cases hok

/-- The first line of a text is taken off by every derivation that takes one. -/
theorem accepts_line_iff {l c c' : Str} {t t' : Nat} (hl : IsLine l) :
    Accepts cb pmask codeOffs (l ++ '\n' :: c) t c' t' ↔
      (c' = l ++ '\n' :: c ∧ t' = t) ∨
        WellFormed cb pmask codeOffs l c ∧ Accepts cb pmask codeOffs c (l.length + 1) c' t' := by
  constructor
  · generalize hs : l ++ '\n' :: c = s
    intro h
    cases h with
    | refl => exact .inl ⟨rfl, rfl⟩
    | line hw h =>
      obtain ⟨rfl, rfl⟩ := line_unique hl hw.1 hs
      exact .inr ⟨hw, h⟩
  · rintro (⟨rfl, rfl⟩ | ⟨hw, h⟩)
    · exact .refl _ _
    · exact .line hw h

theorem errorClears_none {c : Str} {t : Nat} (h : strchr c '\n' = none) :
    ErrorClears cb pmask codeOffs c t := by
  have hno : ∀ l c', IsLine l → c ≠ l ++ '\n' :: c' := by
    rintro l c' hl rfl
    rw [strchr_line hl] at h; cases h
  intro l c' t' hacc hmal
  cases hacc with
  | refl => exact absurd rfl (hno l c' hmal.1)
  | line hw _ => exact absurd rfl (hno _ _ hw.1)

theorem errorClears_line {l c : Str} {t : Nat} (h : WellFormed cb pmask codeOffs l c) :
    ErrorClears cb pmask codeOffs (l ++ '\n' :: c) t ↔
      ErrorClears cb pmask codeOffs c (l.length + 1) := by
  constructor
  · intro hc l' c' t' hacc hmal
    exact hc l' c' t' (.line h hacc) hmal
  · intro hc l' c' t' hacc hmal
    rcases (accepts_line_iff h.1).mp hacc with ⟨he, -⟩ | ⟨-, hacc⟩
    · obtain ⟨rfl, rfl⟩ := line_unique hmal.1 h.1 he
      exact absurd h (malformed_not_wellFormed hmal)
    · exact hc l' c' t' hacc hmal

theorem errorClears_malformed {l c : Str} {t : Nat} (h : Malformed cb pmask codeOffs l c) :
    ErrorClears cb pmask codeOffs (l ++ '\n' :: c) t ↔
      ∀ x ∈ (l ++ '\n' :: c).drop t, x = nul := by
  constructor
  · intro hc
    exact hc l c t (.refl _ _) h
  · intro hc l' c' t' hacc hmal
    rcases (accepts_line_iff h.1).mp hacc with ⟨he, rfl⟩ | ⟨hw, -⟩
    · rw [he]; exact hc
    · exact absurd hw (malformed_not_wellFormed h)

/-! ## One call -/

/-- The buffer that a parse error leaves is well formed if all is `nul` behind the part that it
clears. -/
theorem err_wf_iff {s : Str} {t : Nat} (hs : s.length < pipeBuf) (ht : t ≤ pipeBuf) :
    ReadBuf.WF ⟨List.replicate t nul ++ (padded pipeBuf s).drop t, 0⟩ ↔
      ∀ x ∈ s.drop t, x = nul := by
  have hlen : (List.replicate t nul ++ (padded pipeBuf s).drop t).length = pipeBuf := by
    simp [padded_length hs.le]; omega
  constructor
  · intro h x hx
    have hmem : x ∈ (padded pipeBuf s).drop t := by
      rw [padded, List.drop_append]
      exact List.mem_append_left _ hx
    obtain ⟨j, hj, rfl⟩ := List.mem_iff_getElem.mp hmem
    have hb := h.nul_behind (t + j) (Nat.zero_le _) (by
      rw [List.length_drop, padded_length hs.le] at hj; omega)
    have hidx : (List.replicate t nul ++ (padded pipeBuf s).drop t)[t + j]? =
        ((padded pipeBuf s).drop t)[t + j - (List.replicate t nul).length]? :=
      List.getElem?_append_right (by simp)
    rw [List.length_replicate, Nat.add_sub_cancel_left, List.getElem?_eq_getElem hj] at hidx
    exact Option.some.inj (hidx.symm.trans hb)
  · intro h
    have hall : ∀ x ∈ List.replicate t nul ++ (padded pipeBuf s).drop t, x = nul := by
      intro x hx
      rcases List.mem_append.mp hx with h1 | h1
      · exact (List.mem_replicate.mp h1).2
      · rw [padded, List.drop_append] at h1
        rcases List.mem_append.mp h1 with h2 | h2
        · exact h _ h2
        · exact (List.mem_replicate.mp (List.mem_of_mem_drop h2)).2
    refine ⟨hlen, show 0 < pipeBuf by decide, fun i _ hi => ?_⟩
    rw [List.getElem?_eq_getElem (by rw [hlen]; exact hi)]
    exact congrArg some (hall _ (List.getElem_mem _))

/-- **The message loop** returns, without a negative length, and leaves a well-formed buffer
exactly if each error clears what remains. -/
theorem parseLoop_wf (pmask : PMask) (codeOffs : Ptr) (hcb : cb.Returns) :
    ∀ (k : Nat) (c : Str), c.length = k → ∀ (t : Nat) (a : σ), c.length < pipeBuf → t ≤ pipeBuf →
      ∃ res, parseLoop cb pmask codeOffs (padded pipeBuf c) c.length t a = .ok res ∧
        (ReadBuf.WF ⟨res.ibuf, res.ilen⟩ ↔ ErrorClears cb pmask codeOffs c t) := by
  intro k
  induction k using Nat.strongRecOn with
  | _ k ih =>
    intro c hk t a hc ht
    rcases line_cases c with hnone | ⟨l, c', rfl, hl⟩
    · exact ⟨_, parseLoop_none hnone, iff_of_true (ReadBuf.wf_padded hc) (errorClears_none hnone)⟩
    · have hlen : (l ++ '\n' :: c').length = l.length + 1 + c'.length := by simp; omega
      cases hs : scanMsg cb pmask codeOffs (padded pipeBuf (l ++ '\n' :: c')) 0 l.length with
      | error p =>
        refine ⟨_, parseLoop_err hl ht hc.le hs, ?_⟩
        rw [errorClears_malformed ⟨hl, p, hs⟩]
        exact err_wf_iff hc ht
      | ok call =>
        obtain ⟨a', ha⟩ := hcb call a
        rw [parseLoop_line hl hc.le hs ha, errorClears_line ⟨hl, call, hs⟩]
        exact ih c'.length (by omega) c' rfl _ _ (by omega) (by omega)

/-- What one call reads. -/
def Reader.input (r : Reader σ) (avail : Nat) : Str := r.fifo.take (min avail r.buf.maxRead)

/-- In this call each parse error clears all that remains in the buffer. -/
def Reader.ErrorClears (cb : ParseCb σ) (pmask : PMask) (codeOffs : Ptr) (r : Reader σ)
    (avail : Nat) : Prop :=
  r.input avail ≠ [] →
    UgTrain.ErrorClears cb pmask codeOffs (r.buf.rest ++ r.input avail) (r.input avail).length

theorem step_wf_iff (hcb : cb.Returns) (r : Reader σ) (avail : Nat) (h : r.buf.WF) :
    (∃ r', Reader.step cb pmask codeOffs r avail = .ok r' ∧ r'.buf.WF) ↔
      r.ErrorClears cb pmask codeOffs avail := by
  obtain ⟨buf, fifo, acc⟩ := r
  simp only at h
  unfold Reader.ErrorClears
  set input := Reader.input ⟨buf, fifo, acc⟩ avail with hin
  have hstep : Reader.step cb pmask codeOffs ⟨buf, fifo, acc⟩ avail =
      (readDynmemBuf cb pmask codeOffs buf input acc).map fun x =>
        ⟨x.2.1, fifo.drop (min avail buf.maxRead), x.2.2⟩ := by
    simp only [Reader.step, hin, Reader.input, bind, Except.bind, pure, Except.pure]
    cases readDynmemBuf cb pmask codeOffs buf (fifo.take (min avail buf.maxRead)) acc <;> rfl
  rw [hstep]
  by_cases h0 : input = []
  · rw [h0, readDynmemBuf_nil]
    exact iff_of_true ⟨_, rfl, h⟩ (fun hne => absurd rfl hne)
  · obtain ⟨heq, hlt⟩ := h.eq
    have hmax : buf.maxRead = pipeBuf - 1 - buf.rest.length := by
      rw [heq, ReadBuf.maxRead, padded_length (by omega), ReadBuf.rest_padded]
    have hlen : (buf.rest ++ input).length < pipeBuf := by
      have : input.length ≤ buf.maxRead := by
        rw [hin, Reader.input, List.length_take]
        exact (Nat.min_le_left _ _).trans (Nat.min_le_right _ _)
      rw [List.length_append]; omega
    have hlen' : input.length ≤ pipeBuf := by
      rw [List.length_append] at hlen; omega
    obtain ⟨res, hloop, hiff⟩ := parseLoop_wf pmask codeOffs hcb _
      (buf.rest ++ input) rfl input.length acc hlen hlen'
    have hread : readDynmemBuf cb pmask codeOffs buf input acc =
        .ok ((res.ret : Int), ⟨res.ibuf, res.ilen⟩, res.acc) := by
      conv => lhs; rw [heq]
      rw [readDynmemBuf_padded h0 (by rw [← List.length_append]; omega), hloop]
      rfl
    rw [hread]
    constructor
    · rintro ⟨r', hr, hwf⟩ -
      cases hr
      exact hiff.mp hwf
    · intro hc
      exact ⟨_, rfl, hiff.mpr (hc h0)⟩

/-! ## Runs -/

/-- **The receive buffer over whole runs.** From the first read on, each call returns without a
negative length and leaves a well-formed buffer, exactly if in each call every parse error clears
all that remains. -/
theorem run_wf_iff (hcb : cb.Returns) (fifo : Str) (a : σ) (avails : List Nat) :
    Run.Always (Reader.step cb pmask codeOffs) (fun r => r.buf.WF) ⟨.init, fifo, a⟩ avails ↔
      Run.Each (Reader.step cb pmask codeOffs) (Reader.ErrorClears cb pmask codeOffs)
        ⟨.init, fifo, a⟩ avails := by
  refine Run.always_iff_each (step_wf_iff hcb) ?_
  show ReadBuf.init.WF
  rw [ReadBuf.init_eq]
  exact ReadBuf.wf_padded (by decide)

end Buffer

theorem eventCb_returns : eventCb.Returns := by
  intro call a
  cases call <;> exact ⟨_, rfl⟩

/-- Two messages in three reads. -/
theorem run_wf_example : Run.Always (Reader.step eventCb .sc 0) (fun r => r.buf.WF)
    ⟨.init, "f0x1\nm0x20;s16;c0x400\n".toList, []⟩ [3, 7, 15] := by
  refine (run_wf_iff eventCb_returns _ _ _).mpr ?_
  have hfree : WellFormed eventCb .sc 0 "f0x1".toList "m0x20".toList := ⟨by decide, .ff 1, by rfl⟩
  have hmalloc : WellFormed eventCb .sc 0 "m0x20;s16;c0x400".toList [] :=
    ⟨by decide, Run.exists_ok_of_isOk (by decide +kernel)⟩
  -- what a read finds in the buffer and in the FIFO
  have hclears : ∀ (pre : List Nat) (i : Nat) (rest input : Str),
      (Run.run (Reader.step eventCb .sc 0)
        ⟨.init, "f0x1\nm0x20;s16;c0x400\n".toList, ([] : List HackMsg)⟩ pre).map
          (fun r => (r.buf.rest, r.input i)) = .ok (rest, input) →
      ErrorClears eventCb .sc 0 (rest ++ input) input.length →
      ∀ r, Run.run (Reader.step eventCb .sc 0)
        ⟨.init, "f0x1\nm0x20;s16;c0x400\n".toList, ([] : List HackMsg)⟩ pre = .ok r →
        r.ErrorClears eventCb .sc 0 i := by
    intro pre i rest input hview hc r hr _
    rw [hr] at hview
    obtain ⟨hrest, hinput⟩ := Prod.mk.inj (Except.ok.inj hview)
    rw [hrest, hinput]
    exact hc
  intro pre i r hp hr
  obtain ⟨t, ht⟩ := hp
  rcases pre with _ | ⟨a, _ | ⟨b, _ | ⟨c, pre⟩⟩⟩
  · cases ht
    exact hclears [] 3 [] "f0x".toList (by decide +kernel)
      (errorClears_none (by decide)) r hr
  · cases ht
    exact hclears [3] 7 "f0x".toList "1\nm0x20".toList (by decide +kernel)
      ((errorClears_line hfree).mpr (errorClears_none (by decide))) r hr
  · cases ht
    exact hclears [3, 7] 15 "m0x20".toList ";s16;c0x400\n".toList (by decide +kernel)
      ((errorClears_line hmalloc).mpr (errorClears_none (by decide))) r hr
  · simp at ht

/-- A free, and an allocation without its code address, in one read: the last five bytes of the
allocation survive the parse error. -/
theorem run_not_wf : ¬ Run.Always (Reader.step eventCb .sc 0) (fun r => r.buf.WF)
    ⟨.init, "f0x1\nm0x20;s16\n".toList, []⟩ [15] := by
  intro h
  have hc := (run_wf_iff eventCb_returns _ _ _).mp h [] 15 _ (List.prefix_refl _) rfl
  have hw : WellFormed eventCb .sc 0 "f0x1".toList "m0x20;s16\n".toList :=
    ⟨by decide, .ff 1, by rfl⟩
  have hm : Malformed eventCb .sc 0 "m0x20;s16".toList [] := ⟨by decide, 7, by rfl⟩
  have hin : Reader.input ⟨.init, "f0x1\nm0x20;s16\n".toList, ([] : List HackMsg)⟩ 15 =
      "f0x1".toList ++ '\n' :: ("m0x20;s16".toList ++ ['\n']) := by
    have hmax : ReadBuf.init.maxRead = 4095 := by
      rw [ReadBuf.maxRead, ReadBuf.init, List.length_replicate]; rfl
    rw [Reader.input, hmax]
    decide
  have hr : ReadBuf.init.rest = [] := by decide
  have hcl := hc (by rw [hin]; simp)
  rw [hin, hr, List.nil_append] at hcl
  have := (errorClears_malformed hm).mp ((errorClears_line hw).mp hcl) ';' (by decide)
  exact absurd this (by decide)

end UgTrain
