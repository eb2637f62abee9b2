import UgTrain.HackMsg
import UgTrain.FifoLemmas

/-!
# Decoding the FIFO stream

The reader calls one callback for each message of libmemhack, in the order of the messages and
with the values that were written, however the stream is cut into reads (`run_decodes`).

`Decoded ms r` is the invariant of the reader: the messages in `r.acc` are handed out, and what
is left of the stream is the rest in the buffer, which holds no complete line, and the FIFO.
-/

namespace UgTrain

open CLib

/-- What libmemhack writes: every message fits into the receive buffer. -/
def HackMsg.Sent (m : HackMsg) : Prop := m.Ok ∧ m.encode.length < pipeBuf - 1

instance (m : HackMsg) : Decidable m.Sent := inferInstanceAs (Decidable (_ ∧ _))

/-- The state of the reader on the stream of `ms`. -/
structure Decoded (ms : List HackMsg) (r : Reader (List HackMsg)) : Prop where
  buf : r.buf.WF
  handed : r.acc <+: ms
  left : encodeAll r.acc ++ (r.buf.rest ++ r.fifo) = encodeAll ms
  incomplete : '\n' ∉ r.buf.rest

theorem HackMsg.isLine (m : HackMsg) (h : m.Ok) : IsLine m.body := m.body_not_mem h

/-- A text without a line break at the start of a stream of messages ends within the first one. -/
theorem length_lt_of_incomplete {c s : Str} {ms : List HackMsg} (hms : ∀ m ∈ ms, m.Sent)
    (h : c ++ s = encodeAll ms) (hc : '\n' ∉ c) : c.length < pipeBuf - 2 := by
  cases ms with
  | nil =>
    obtain ⟨rfl, -⟩ := List.append_eq_nil_iff.mp h
    decide
  | cons m ms =>
    have hm := (hms m (by simp)).2
    rw [HackMsg.encode_length] at hm
    by_contra hlen
    have hle : (m.body ++ ['\n']).length ≤ c.length := by simp; omega
    have hp : m.body ++ ['\n'] <+: c := by
      have hstream : m.encode <+: encodeAll (m :: ms) :=
        ⟨encodeAll ms, (encodeAll_cons m ms).symm⟩
      exact List.prefix_of_prefix_length_le hstream ⟨s, h⟩ hle
    exact hc (hp.subset (by simp))

/-- **The message loop on the start `c` of a stream**: the complete messages are handed out. -/
theorem parseLoop_decodes (codeOffs : Ptr) {n : Nat} :
    ∀ (ms : List HackMsg), (∀ m ∈ ms, m.Sent) → ∀ (c s : Str) (t : Nat) (a : List HackMsg),
      c ++ s = encodeAll ms → c.length ≤ n →
      ∃ t' ms' c', parseLoop eventCb .sc codeOffs (padded n c) c.length t a =
          .ok ⟨t', padded n c', c'.length, none, a ++ ms'⟩ ∧
        ms' <+: ms ∧ c = encodeAll ms' ++ c' ∧ '\n' ∉ c' := by
  intro ms
  induction ms with
  | nil =>
    intro _ c s t a h _
    obtain ⟨rfl, -⟩ := List.append_eq_nil_iff.mp h
    exact ⟨t, [], [], by rw [parseLoop_none rfl, List.append_nil], List.prefix_rfl, rfl, by simp⟩
  | cons m ms ih =>
    intro hms c s t a h hn
    have hm := (hms m (by simp)).1
    by_cases hc : '\n' ∈ c
    · -- The first message is complete.
      have hle : m.encode.length ≤ c.length := by
        by_contra hlt
        have hp : c <+: m.body := by
          have h1 : c <+: m.encode :=
            List.prefix_of_prefix_length_le ⟨s, h⟩ ⟨encodeAll ms, (encodeAll_cons m ms).symm⟩
              (by omega)
          rw [HackMsg.encode_length] at hlt
          exact List.prefix_of_prefix_length_le h1 ⟨['\n'], rfl⟩ (by omega)
        exact (m.isLine hm).1 (hp.subset hc)
      obtain ⟨c₁, rfl⟩ : m.encode <+: c :=
        List.prefix_of_prefix_length_le ⟨encodeAll ms, (encodeAll_cons m ms).symm⟩ ⟨s, h⟩ hle
      have hrest : c₁ ++ s = encodeAll ms := by
        rw [encodeAll_cons, List.append_assoc] at h
        exact List.append_cancel_left h
      have hform : m.encode ++ c₁ = m.body ++ '\n' :: c₁ := by simp [HackMsg.encode]
      have hlen : c₁.length ≤ n := by
        rw [List.length_append] at hn; omega
      obtain ⟨call, hs, hcall⟩ :=
        scanMsg_encode m hm codeOffs (c₁ ++ List.replicate (n - (m.encode ++ c₁).length) nul) a
      rw [← List.append_assoc] at hs
      obtain ⟨t', ms', c', hloop, hpre, hc', hno⟩ :=
        ih (fun m' h' => hms m' (by simp [h'])) c₁ s (m.body.length + 1) (a ++ [m]) hrest hlen
      refine ⟨t', m :: ms', c', ?_, ?_, ?_, hno⟩
      · rw [hform] at hs hn ⊢
        rw [parseLoop_line (m.isLine hm) hn hs hcall, hloop]
        simp
      · exact (List.prefix_cons_inj m).mpr hpre
      · rw [encodeAll_cons, List.append_assoc, ← hc']
    · have hnone : strchr c '\n' = none := by
        rw [strchr_eq_none newline_ne_nul]
        exact fun hmem => hc ((List.takeWhile_prefix _).subset hmem)
      exact ⟨t, [], c, by rw [parseLoop_none hnone, List.append_nil], List.nil_prefix, rfl, hc⟩

/-- Behind the messages handed out comes the stream of the others. -/
theorem Decoded.rest_eq {ms : List HackMsg} {r : Reader (List HackMsg)} (h : Decoded ms r) :
    ∃ ms', ms = r.acc ++ ms' ∧ r.buf.rest ++ r.fifo = encodeAll ms' := by
  obtain ⟨ms', hms'⟩ := h.handed
  have hl := h.left
  rw [← hms', encodeAll_append] at hl
  exact ⟨ms', hms'.symm, List.append_cancel_left hl⟩

/-- There is room for at least one more byte. -/
theorem Decoded.maxRead_pos {ms : List HackMsg} {r : Reader (List HackMsg)}
    (hms : ∀ m ∈ ms, m.Sent) (h : Decoded ms r) : 0 < r.buf.maxRead := by
  obtain ⟨ms', rfl, hs⟩ := h.rest_eq
  have hlt := length_lt_of_incomplete (fun m hm => hms m (by simp [hm])) hs h.incomplete
  have hlen := h.buf.length
  have hr : r.buf.rest.length = r.buf.ilen := by
    have := h.buf.ilen_lt
    simp [ReadBuf.rest]; omega
  unfold ReadBuf.maxRead
  omega

/-- **One read keeps the invariant**, and takes what it can from the FIFO. -/
theorem step_decodes {ms : List HackMsg} (hms : ∀ m ∈ ms, m.Sent) (codeOffs : Ptr)
    (r : Reader (List HackMsg)) (avail : Nat) (h : Decoded ms r) :
    ∃ r', Reader.step eventCb .sc codeOffs r avail = .ok r' ∧ Decoded ms r' ∧
      r'.fifo = r.fifo.drop (min avail r.buf.maxRead) := by
  obtain ⟨⟨ibuf, ilen⟩, fifo, acc⟩ := r
  set n := min avail (ReadBuf.maxRead ⟨ibuf, ilen⟩) with hn
  by_cases hin : fifo.take n = []
  · refine ⟨⟨⟨ibuf, ilen⟩, fifo.drop n, acc⟩, ?_, ?_, rfl⟩
    · simp only [Reader.step, ← hn, hin, readDynmemBuf_nil, bind, Except.bind, pure, Except.pure]
    · have hdrop : fifo.drop n = fifo := by
        have := List.take_append_drop n fifo
        rwa [hin, List.nil_append] at this
      exact ⟨h.buf, h.handed, by rw [hdrop]; exact h.left, h.incomplete⟩
  · obtain ⟨ms₁, hms₁, hstream⟩ := h.rest_eq
    obtain ⟨heq, hlt⟩ := h.buf.eq
    simp only at heq hlt hms₁ hstream
    set c := ReadBuf.rest ⟨ibuf, ilen⟩ with hc
    have hmax : ReadBuf.maxRead ⟨ibuf, ilen⟩ = pipeBuf - 1 - c.length := by
      rw [heq, ReadBuf.maxRead, padded_length (by omega)]
    have hlen : (c ++ fifo.take n).length < pipeBuf := by
      simp only [List.length_append, List.length_take]
      omega
    have hsplit : (c ++ fifo.take n) ++ fifo.drop n = encodeAll ms₁ := by
      rw [List.append_assoc, List.take_append_drop, hstream]
    obtain ⟨t', ms', c', hloop, hpre, hcc, hno⟩ :=
      parseLoop_decodes codeOffs ms₁ (fun m hm => hms m (by simp [hms₁, hm])) _ _
        (fifo.take n).length acc hsplit hlen.le
    have hc' : c'.length < pipeBuf := by
      have hsum : (c ++ fifo.take n).length = (encodeAll ms').length + c'.length := by
        rw [hcc, List.length_append]
      omega
    have hread : readDynmemBuf eventCb .sc codeOffs ⟨ibuf, ilen⟩ (fifo.take n) acc =
        .ok ((t' : Int), ⟨padded pipeBuf c', c'.length⟩, acc ++ ms') := by
      rw [heq, readDynmemBuf_padded hin (by rw [← List.length_append]; omega), hloop]
      rfl
    refine ⟨⟨⟨padded pipeBuf c', c'.length⟩, fifo.drop n, acc ++ ms'⟩, ?_, ?_, rfl⟩
    · simp only [Reader.step, ← hn, hread, bind, Except.bind, pure, Except.pure]
    · refine ⟨ReadBuf.wf_padded hc', ?_, ?_, ?_⟩
      · rw [hms₁]; exact (List.prefix_append_right_inj acc).mpr hpre
      · simp only [ReadBuf.rest_padded]
        rw [hms₁, encodeAll_append, encodeAll_append, List.append_assoc, ← List.append_assoc
          (encodeAll ms'), ← hcc, hsplit]
      · simp only [ReadBuf.rest_padded]; exact hno

/-- When the FIFO is empty, all messages are handed out. -/
theorem Decoded.acc_eq {ms : List HackMsg} {r : Reader (List HackMsg)} (h : Decoded ms r)
    (hf : r.fifo = []) : r.acc = ms := by
  obtain ⟨ms', hms', hs⟩ := h.rest_eq
  rw [hf, List.append_nil] at hs
  cases ms' with
  | nil => rw [hms', List.append_nil]
  | cons m ms' =>
    have hno := h.incomplete
    rw [hs, encodeAll_cons] at hno
    exact absurd (by simp [HackMsg.encode]) hno

/-- The run lemma: the invariant holds after any reads, and each read of at least one byte takes
at least one byte from the FIFO. -/
theorem run_decodes_from {ms : List HackMsg} (hms : ∀ m ∈ ms, m.Sent) (codeOffs : Ptr)
    (avails : List Nat) (r : Reader (List HackMsg)) (h : Decoded ms r) :
    ∃ r', Reader.run eventCb .sc codeOffs r avails = .ok r' ∧ Decoded ms r' ∧
      ((∀ n ∈ avails, 0 < n) → r'.fifo.length ≤ r.fifo.length - avails.length) := by
  induction avails generalizing r with
  | nil => exact ⟨r, rfl, h, fun _ => by simp⟩
  | cons n avails ih =>
    obtain ⟨r₁, hstep, h₁, hfifo⟩ := step_decodes hms codeOffs r n h
    obtain ⟨r', hrun, h', hlen⟩ := ih r₁ h₁
    refine ⟨r', by rw [Reader.run, Run.run_cons_ok hstep]; exact hrun, h', fun hpos => ?_⟩
    have hmax := h.maxRead_pos hms
    have h1 := hlen fun k hk => hpos k (by simp [hk])
    have h2 := hpos n (by simp)
    rw [hfifo, List.length_drop] at h1
    simp only [List.length_cons]
    omega

/-- The reader before its first read. -/
def Reader.init (ms : List HackMsg) : Reader (List HackMsg) := ⟨.init, encodeAll ms, []⟩

theorem Decoded.init (ms : List HackMsg) : Decoded ms (Reader.init ms) := by
  have hb : (Reader.init ms).buf = ⟨padded pipeBuf [], ([] : Str).length⟩ := ReadBuf.init_eq
  refine ⟨?_, List.nil_prefix, ?_, ?_⟩
  · rw [hb]; exact ReadBuf.wf_padded (by decide)
  · rw [hb, ReadBuf.rest_padded]; rfl
  · rw [hb, ReadBuf.rest_padded]; simp

/-- **Exact decoding, however the stream is cut.** The callbacks are called once for each message
that is read completely, in order and with the values written. When the FIFO is empty, these are
all messages, and reads of at least one byte come to that. -/
theorem run_decodes {ms : List HackMsg} (hms : ∀ m ∈ ms, m.Sent) (codeOffs : Ptr)
    (avails : List Nat) :
    ∃ r, Reader.run eventCb .sc codeOffs (Reader.init ms) avails = .ok r ∧ Decoded ms r ∧
      (r.fifo = [] → r.acc = ms) ∧
      ((∀ n ∈ avails, 0 < n) → (encodeAll ms).length ≤ avails.length → r.acc = ms) := by
  obtain ⟨r, hrun, h, hlen⟩ := run_decodes_from hms codeOffs avails _ (.init ms)
  refine ⟨r, hrun, h, h.acc_eq, fun hpos hle => h.acc_eq ?_⟩
  have h1 := hlen hpos
  have h2 : (Reader.init ms).fifo.length = (encodeAll ms).length := rfl
  exact List.eq_nil_of_length_eq_zero (by omega)

theorem run_decodes_example :
    (∀ m ∈ [HackMsg.malloc 0x20 7 0x400, .lib ['a'], .free 0x20, .stackEnd 0x7f], m.Sent) ∧
      ∃ r, Reader.run eventCb .sc 0
          (Reader.init [.malloc 0x20 7 0x400, .lib ['a'], .free 0x20, .stackEnd 0x7f])
          (List.replicate 64 3) = .ok r ∧
        r.acc = [.malloc 0x20 7 0x400, .lib ['a'], .free 0x20, .stackEnd 0x7f] := by
  have hms : ∀ m ∈ [HackMsg.malloc 0x20 7 0x400, .lib ['a'], .free 0x20, .stackEnd 0x7f],
      m.Sent := by decide
  obtain ⟨r, hrun, -, -, hall⟩ := run_decodes hms 0 (List.replicate 64 3)
  exact ⟨hms, r, hrun, hall (by decide) (by decide)⟩

end UgTrain
