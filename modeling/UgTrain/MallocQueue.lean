import UgTrain.AllocMsg
import UgTrain.MemMgmt

/-!
# The malloc queue is a queue of messages

`Holds mq ms`: the byte buffer `mq` holds the messages `ms`, one behind the other, and ends with
`nul`. Behind the end there may be anything.

* `queueDynmemAddr_holds`: a message that fits comes behind the others.
* `queueDynmemAddr_refused`: a message that does not fit leaves no such buffer behind. Its first
  byte stays where the end was, since the end is written one byte too late.
* `removeMallocFromQueue_holds`: the first message with the address is removed.
* `processMallocs_holds`: the callback is called for each message, and the queue is empty.
-/

namespace UgTrain

open CLib

/-- The bytes of the messages. -/
def queueText (ms : List AllocMsg) : Str := (ms.map AllocMsg.text).flatten

@[simp] theorem queueText_nil : queueText [] = [] := rfl

@[simp] theorem queueText_cons (m : AllocMsg) (ms : List AllocMsg) :
    queueText (m :: ms) = m.text ++ queueText ms := by simp [queueText]

@[simp] theorem queueText_append (ms ms' : List AllocMsg) :
    queueText (ms ++ ms') = queueText ms ++ queueText ms' := by simp [queueText]

/-- **The queue holds the messages `ms`.** -/
structure MQueue.Holds (mq : MQueue) (ms : List AllocMsg) : Prop where
  size : mq.size = mqueueSize
  end_lt : mq.end_ < mqueueSize
  nul_at_end : mq.data[mq.end_]? = some nul
  content : mq.data.take mq.end_ = queueText ms

namespace MQueue

variable {mq : MQueue} {ms : List AllocMsg}

/-- A queue that holds messages: their bytes, the end, and bytes that do not matter. -/
theorem Holds.eq (h : mq.Holds ms) :
    ∃ z, mq = ⟨queueText ms ++ nul :: z, (queueText ms).length⟩ ∧
      (queueText ms).length + 1 + z.length = mqueueSize := by
  obtain ⟨data, end_⟩ := mq
  obtain ⟨hsize, hlt, hnul, hcont⟩ := h
  simp only [MQueue.size] at hsize hlt hnul hcont
  have hlen : (queueText ms).length = end_ := by
    rw [← hcont, List.length_take]; omega
  have hdrop : data.drop end_ = nul :: data.drop (end_ + 1) := by
    rw [List.drop_eq_getElem_cons (by omega)]
    rw [List.getElem?_eq_getElem (by omega)] at hnul
    rw [Option.some.inj hnul]
  refine ⟨data.drop (end_ + 1), ?_, ?_⟩
  · rw [hlen, ← hdrop, ← hcont, List.take_append_drop]
  · rw [hlen, List.length_drop]; omega

theorem holds_mk {z : Str} (h : (queueText ms).length + 1 + z.length = mqueueSize) :
    Holds ⟨queueText ms ++ nul :: z, (queueText ms).length⟩ ms := by
  refine ⟨?_, ?_, ?_, ?_⟩
  · simp [MQueue.size]; omega
  · show (queueText ms).length < mqueueSize
    omega
  · simp
  · simp

theorem Holds.end_eq (h : mq.Holds ms) : mq.end_ = (queueText ms).length := by
  obtain ⟨z, rfl, -⟩ := h.eq
  rfl

end MQueue

open MQueue

variable {mq : MQueue} {ms : List AllocMsg} {m : AllocMsg} {behind : Str} {ppos : Nat}

/-- The parser's buffer with the message at its front. -/
def AllocMsg.postParse (m : AllocMsg) (behind : Str) (ppos : Nat) : PostParse :=
  ⟨m.text ++ behind, ppos, m.body.length⟩

/-- What is copied is the line of the message. -/
theorem cstr_postParse :
    cstr ((m.postParse behind ppos).ibuf.take ((m.postParse behind ppos).msgEnd + 1)) =
      m.text := by
  simp only [AllocMsg.postParse]
  rw [← m.text_length, List.take_left' rfl, cstr_of_not_mem m.nul_not_mem_text]

/-! ## Queueing -/

/-- The message fits: there is room for its bytes and the end. -/
def MQueue.Fits (mq : MQueue) (m : AllocMsg) : Prop := mq.end_ + m.text.length < mq.size

/-- **A message that fits comes behind the others.** -/
theorem queueDynmemAddr_holds (h : mq.Holds ms) (hfit : mq.Fits m) (behind : Str) (ppos : Nat) :
    ∃ mq', queueDynmemAddr (m.postParse behind ppos) mq = .ok mq' ∧ mq'.Holds (ms ++ [m]) := by
  obtain ⟨z, rfl, hz⟩ := h.eq
  have hlen := m.text_length
  unfold MQueue.Fits at hfit
  simp only [MQueue.size, List.length_append, List.length_cons] at hfit
  have hbytes : snprintfBytes (mqueueSize - (queueText ms).length) m.text = m.text ++ [nul] := by
    rw [snprintfBytes, if_neg (by omega), List.take_of_length_le (by omega)]
  -- The bytes that are overwritten: the end and as many behind it.
  have hb : (nul :: z.take m.text.length).length = (m.text ++ [nul]).length := by
    simp; omega
  have hst := store_append (a := queueText ms) (c := z.drop m.text.length) hb
  have hsplit : queueText ms ++ nul :: z.take m.text.length ++ z.drop m.text.length =
      queueText ms ++ nul :: z := by
    rw [List.append_assoc, List.cons_append, List.take_append_drop]
  rw [hsplit] at hst
  have hsize : MQueue.size ⟨queueText ms ++ nul :: z, (queueText ms).length⟩ = mqueueSize := by
    simp [MQueue.size]; omega
  refine ⟨⟨queueText (ms ++ [m]) ++ nul :: z.drop m.text.length,
    (queueText (ms ++ [m])).length⟩, ?_, holds_mk ?_⟩
  · simp only [queueDynmemAddr, cstr_postParse, hsize, snprintf, hbytes]
    rw [hst, Run.ok_bind, if_neg (by omega)]
    simp [pure, Except.pure]
  · simp only [queueText_append, queueText_cons, queueText_nil, List.append_nil,
      List.length_append, List.length_drop]
    omega

/-- **A refused message leaves its first byte behind**: no queue of the same messages, or a write
behind the buffer. -/
theorem queueDynmemAddr_refused (h : mq.Holds ms) (hfit : ¬ mq.Fits m) {mq' : MQueue}
    (hok : queueDynmemAddr (m.postParse behind ppos) mq = .ok mq') (ms' : List AllocMsg) :
    ¬ mq'.Holds ms' := by
  obtain ⟨z, rfl, hz⟩ := h.eq
  obtain ⟨tl, htl⟩ := m.body_eq
  have hlen := m.text_length
  unfold MQueue.Fits at hfit
  simp only [MQueue.size, List.length_append, List.length_cons] at hfit
  have hsize : MQueue.size ⟨queueText ms ++ nul :: z, (queueText ms).length⟩ = mqueueSize := by
    simp [MQueue.size]; omega
  have htext : m.text = 'm' :: (tl ++ ['\n']) := by rw [AllocMsg.text, htl]; rfl
  simp only [queueDynmemAddr, cstr_postParse, hsize, Run.bind_eq_ok] at hok
  obtain ⟨data, hsn, hok⟩ := hok
  rw [if_pos (by omega)] at hok
  obtain ⟨data', hst, hmq⟩ := Run.bind_eq_ok.mp hok
  cases hmq
  intro h'
  -- What is written of the text, and then the `nul` behind its first byte.
  obtain ⟨k, hk⟩ : ∃ k, mqueueSize - (queueText ms).length = k + 1 := ⟨z.length, by omega⟩
  have hdata : data.length = mqueueSize ∧ (k ≠ 0 → data[(queueText ms).length]? = some 'm') := by
    have hbytes : snprintfBytes (k + 1) m.text = m.text.take k ++ [nul] := by
      rw [snprintfBytes, if_neg (by omega)]; rfl
    have hb : (nul :: z).length = (m.text.take k ++ [nul]).length := by
      simp; omega
    have hst' := store_append (a := queueText ms) (c := []) hb
    rw [List.append_nil, List.append_nil] at hst'
    rw [snprintf, hk, hbytes, hst'] at hsn
    cases hsn
    constructor
    · simp; omega
    · intro hk0
      obtain ⟨j, rfl⟩ := Nat.exists_eq_succ_of_ne_zero hk0
      rw [List.getElem?_append_right (by omega), Nat.sub_self, htext]
      rfl
  rw [store] at hst
  split at hst
  · rename_i hle
    simp only [List.length_singleton, hdata.1] at hle
    cases hst
    have hnul := h'.nul_at_end
    simp only at hnul
    have hlt : (queueText ms).length < data.length := by omega
    rw [List.append_assoc, List.getElem?_append_left (by rw [List.length_take]; omega),
      List.getElem?_take_of_lt (Nat.lt_succ_self _), hdata.2 (by omega)] at hnul
    exact absurd (Option.some.inj hnul) (by decide)
  · cases hst

/-! ## Removing -/

/-- **The loop from the message behind `pre` on** removes the first message with the address. -/
theorem removeMallocLoop_holds (freeAddr : Ptr) (z : Str) :
    ∀ (suf pre : List AllocMsg), suf ≠ [] →
      ∃ z', (queueText (suf.eraseP (·.memAddr = freeAddr))).length + z'.length =
          (queueText suf).length + z.length ∧
        removeMallocLoop ⟨queueText (pre ++ suf) ++ nul :: z, (queueText (pre ++ suf)).length⟩
            freeAddr ((queueText pre).length + 1) =
          .ok (suf.any (·.memAddr = freeAddr),
            ⟨queueText (pre ++ suf.eraseP (·.memAddr = freeAddr)) ++ nul :: z',
              (queueText (pre ++ suf.eraseP (·.memAddr = freeAddr))).length⟩) := by
  intro suf
  induction suf with
  | nil => intro pre h; exact absurd rfl h
  | cons m suf ih =>
    intro pre _
    obtain ⟨tl, htl⟩ := m.body_eq
    have htext : m.text = 'm' :: (tl ++ ['\n']) := by rw [AllocMsg.text, htl]; rfl
    have htlen : m.text.length = tl.length + 2 := by rw [htext]; simp
    have hbody : m.body.length = tl.length + 1 := by rw [htl]; simp
    have htlLine : '\n' ∉ tl ∧ nul ∉ tl := by
      have h := m.isLine
      rw [IsLine, htl] at h
      exact ⟨fun hx => h.1 (List.mem_cons_of_mem _ hx), fun hx => h.2 (List.mem_cons_of_mem _ hx)⟩
    set data := queueText (pre ++ m :: suf) ++ nul :: z with hdata
    have hlen : (queueText (pre ++ m :: suf)).length =
        (queueText pre).length + m.text.length + (queueText suf).length := by
      simp; omega
    have hdrop : data.drop ((queueText pre).length + 1) =
        tl ++ '\n' :: (queueText suf ++ nul :: z) := by
      rw [hdata, ← List.drop_drop]
      simp [htext, List.append_assoc]
    have hchr : strchr (data.drop ((queueText pre).length + 1)) '\n' = some tl.length := by
      rw [hdrop]; exact strchr_append_cons _ _ htlLine.1 htlLine.2 newline_ne_nul
    obtain ⟨r, hscan⟩ := m.scanPtr_tail htl (queueText suf ++ nul :: z)
    rw [← hdrop] at hscan
    rw [removeMallocLoop]
    simp only [hchr, hscan]
    by_cases haddr : m.memAddr = freeAddr
    · -- The rest with its end is moved over the message.
      have hmove := memmove_append (a := queueText pre) (b := m.text)
        (c := queueText suf ++ nul :: z) (k := (queueText suf).length + 1) (by simp)
      have hsplit : queueText pre ++ m.text ++ (queueText suf ++ nul :: z) = data := by
        simp [hdata]
      have htake : (queueText suf ++ nul :: z).take ((queueText suf).length + 1) =
          queueText suf ++ [nul] := by
        rw [List.take_append]; simp
      rw [hsplit, htake] at hmove
      refine ⟨(m.text ++ (queueText suf ++ nul :: z)).drop ((queueText suf).length + 1), ?_, ?_⟩
      · simp [haddr]; omega
      · have hsrc : (queueText pre).length + 1 + tl.length + 1 =
            (queueText pre).length + m.text.length := by omega
        have hk : (queueText (pre ++ m :: suf)).length + 1 -
            ((queueText pre).length + m.text.length) = (queueText suf).length + 1 := by omega
        rw [if_pos haddr, if_neg (by omega), hsrc]
        simp only [bind, Except.bind, pure, Except.pure, Nat.add_sub_cancel]
        rw [if_neg (by omega), hk, hmove]
        simp only [Nat.add_sub_cancel_left]
        rw [if_neg (by omega)]
        simp [haddr]
        omega
    · rw [if_neg haddr]
      by_cases hsuf : suf = []
      · subst hsuf
        refine ⟨z, by simp [haddr], ?_⟩
        have hend : (queueText (pre ++ [m])).length ≤
            (queueText pre).length + 1 + tl.length + 1 + 1 := by
          rw [hlen]; simp; omega
        rw [if_pos hend]
        simp [haddr, hdata]
      · obtain ⟨m', suf', rfl⟩ := List.exists_cons_of_ne_nil hsuf
        obtain ⟨z', hz', hrec⟩ := ih (pre ++ [m]) hsuf
        have hm' := m'.text_length
        obtain ⟨tl', htl'⟩ := m'.body_eq
        have hpos : 0 < m'.body.length := by rw [htl']; simp
        simp only [List.append_assoc, List.singleton_append] at hrec
        have hpre : (queueText (pre ++ [m])).length + 1 =
            (queueText pre).length + 1 + tl.length + 1 + 1 := by simp; omega
        have hend : ¬ (queueText (pre ++ m :: m' :: suf')).length ≤
            (queueText pre).length + 1 + tl.length + 1 + 1 := by
          rw [hlen]; simp; omega
        refine ⟨z', by simp only [haddr, decide_false, Bool.false_eq_true, not_false_eq_true,
          List.eraseP_cons_of_neg, queueText_cons m, List.length_append] ; omega, ?_⟩
        rw [if_neg hend, ← hpre, hrec]
        simp [haddr]

/-- **The first message with the address is removed.** -/
theorem removeMallocFromQueue_holds (h : mq.Holds ms) (freeAddr : Ptr) :
    ∃ mq', removeMallocFromQueue mq freeAddr = .ok (ms.any (·.memAddr = freeAddr), mq') ∧
      mq'.Holds (ms.eraseP (·.memAddr = freeAddr)) := by
  obtain ⟨z, rfl, hz⟩ := h.eq
  unfold removeMallocFromQueue
  by_cases hms : ms = []
  · subst hms
    exact ⟨_, rfl, h⟩
  · obtain ⟨m, ms', rfl⟩ := List.exists_cons_of_ne_nil hms
    obtain ⟨z', hz', hloop⟩ := removeMallocLoop_holds freeAddr z _ [] hms
    have hlen := m.text_length
    rw [if_neg (by simp)]
    refine ⟨_, hloop, holds_mk ?_⟩
    simp only [List.nil_append]
    omega

/-! ## Processing -/

variable {σ : Type} {mf : PostParse → Ptr → SizeT → Ptr → Ptr → Ptr → σ → Except Fault σ}
  {f : σ → Ptr × SizeT × Ptr → σ}

/-- The message loop on the rest `ms` of the queue calls `mf` for each message. -/
theorem parseLoop_queue (hmf : ∀ pp memAddr size offs codeAddr stackOffs a,
      mf pp memAddr size offs codeAddr stackOffs a = .ok (f a (memAddr, size, codeAddr))) :
    ∀ (ms : List AllocMsg) (z : Str) (t : Nat) (a : σ),
      ∃ t' data, parseLoop ⟨some mf, none, none, none⟩ .sc 0 (queueText ms ++ nul :: z)
          (queueText ms).length t a =
          .ok ⟨t', data, 0, none, (ms.map AllocMsg.args).foldl f a⟩ ∧
        data.length = (queueText ms ++ nul :: z).length := by
  intro ms
  induction ms with
  | nil =>
    intro z t a
    refine ⟨t, nul :: z, ?_, rfl⟩
    have hchr : strchr (nul :: z) '\n' = none := by simp [strchr, newline_ne_nul.symm]
    rw [parseLoop]
    simp [hchr]
  | cons m ms ih =>
    intro z t a
    obtain ⟨tl, htl⟩ := m.body_eq
    obtain ⟨ppos, hscan⟩ := m.scanMalloc_text (queueText ms ++ nul :: z)
    have hmsg : scanMsg ⟨some mf, none, none, none⟩ .sc 0
        (m.body ++ '\n' :: queueText ms ++ nul :: z) 0 m.body.length =
        .ok (.mf ⟨m.text ++ (queueText ms ++ nul :: z), ppos, m.body.length⟩ m.memAddr m.memSize
          0 m.codeAddr 0) := by
      rw [m.text_append] at hscan ⊢
      rw [← hscan, htl, List.append_assoc]
      rfl
    have hline := parseLoop_line_append (t := t) (a := a) m.isLine hmsg (hmf _ _ _ _ _ _ a)
    rw [← m.text_append] at hline
    obtain ⟨t', data, hloop, hlen⟩ := ih (List.replicate m.body.length nul ++ nul :: z)
      (m.body.length + 1) (f a m.args)
    have hz : List.replicate (m.body.length + 1) nul ++ nul :: z =
        nul :: (List.replicate m.body.length nul ++ nul :: z) := by
      rw [List.replicate_succ]; rfl
    refine ⟨t', data, ?_, ?_⟩
    · rw [queueText_cons, hline, hz]
      exact hloop
    · rw [hlen, queueText_cons]
      simp only [List.length_append, List.length_cons, List.length_replicate, m.text_length]
      omega

/-- **A flush hands out all messages in their order**, and leaves an empty queue. -/
theorem processMallocs_holds (h : mq.Holds ms)
    (hmf : ∀ pp memAddr size offs codeAddr stackOffs a,
      mf pp memAddr size offs codeAddr stackOffs a = .ok (f a (memAddr, size, codeAddr)))
    (a : σ) :
    ∃ mq', processMallocs mf .sc mq a = .ok (mq', (ms.map AllocMsg.args).foldl f a) ∧
      mq'.Holds [] := by
  obtain ⟨z, rfl, hz⟩ := h.eq
  obtain ⟨t', data, hloop, hlen⟩ := parseLoop_queue hmf ms z (queueText ms).length a
  have hsize : data.length = mqueueSize := by rw [hlen]; simp; omega
  have hclear : memset data 0 mqueueSize = .ok (List.replicate mqueueSize nul) := by
    rw [memset, store, if_pos (by simp [hsize])]
    simp [hsize]
  have hmq : MQueue.size ⟨queueText ms ++ nul :: z, (queueText ms).length⟩ = mqueueSize := by
    rw [MQueue.size, ← hlen, hsize]
  refine ⟨⟨List.replicate mqueueSize nul, 0⟩, ?_, ?_⟩
  · simp only [processMallocs, parseDynmemBuf, Nat.zero_add, hloop, hmq, Run.ok_bind, hclear]
    rfl
  · obtain ⟨k, hk⟩ : ∃ k, mqueueSize = k + 1 := ⟨_, rfl⟩
    have hrep : List.replicate mqueueSize nul = nul :: List.replicate k nul := by
      rw [hk, List.replicate_succ]
    have hlen0 : (queueText []).length + 1 + (List.replicate k nul).length = mqueueSize := by
      simp; omega
    rw [hrep]
    exact holds_mk hlen0

/-! ## Runs -/

/-- What happens to the queue: `queue_dynmem_addr` with a message and what is behind it in the
receive buffer, a free, or `process_mallocs`. -/
inductive QueueOp where
  | queue (m : AllocMsg) (behind : Str) (ppos : Nat)
  | remove (freeAddr : Ptr)
  | flush

/-- The queue as it should be: the pending messages and what was handed to
`alloc_dynmem_addr`. -/
structure MsgQueue where
  pending : List AllocMsg
  handed : List (Ptr × SizeT × Ptr)

/-- A message that does not fit is refused; a free removes the message of its allocation; a flush
hands out all messages. -/
def MsgQueue.step (q : MsgQueue) : QueueOp → MsgQueue
  | .queue m _ _ =>
    if (queueText q.pending).length + m.text.length < mqueueSize then
      { q with pending := q.pending ++ [m] }
    else q
  | .remove freeAddr => { q with pending := q.pending.eraseP (·.memAddr = freeAddr) }
  | .flush => ⟨[], q.handed ++ q.pending.map AllocMsg.args⟩

/-- The byte queue and what it handed out, next to the queue as it should be. -/
structure QueueRun where
  mq : MQueue
  handed : List (Ptr × SizeT × Ptr)
  spec : MsgQueue

/-- The callback that writes down what it is called with. -/
def recordMf (_ : PostParse) (memAddr : Ptr) (memSize : SizeT) (_ codeAddr _ : Ptr)
    (a : List (Ptr × SizeT × Ptr)) : Except Fault (List (Ptr × SizeT × Ptr)) :=
  .ok (a ++ [(memAddr, memSize, codeAddr)])

def QueueRun.step (s : QueueRun) (op : QueueOp) : Except Fault QueueRun :=
  match op with
  | .queue m behind ppos => do
    let mq ← queueDynmemAddr (m.postParse behind ppos) s.mq
    return ⟨mq, s.handed, s.spec.step op⟩
  | .remove freeAddr => do
    let (_, mq) ← removeMallocFromQueue s.mq freeAddr
    return ⟨mq, s.handed, s.spec.step op⟩
  | .flush => do
    let (mq, handed) ← processMallocs recordMf .sc s.mq s.handed
    return ⟨mq, handed, s.spec.step op⟩

/-- The byte queue is the queue as it should be. -/
structure QueueRun.Faithful (s : QueueRun) : Prop where
  holds : s.mq.Holds s.spec.pending
  handed : s.handed = s.spec.handed

/-- The operation is no refused message. -/
def QueueRun.Accepts (s : QueueRun) : QueueOp → Prop
  | .queue m _ _ => s.mq.Fits m
  | _ => True

instance (s : QueueRun) : ∀ op, Decidable (s.Accepts op)
  | .queue m _ _ => inferInstanceAs (Decidable (s.mq.end_ + m.text.length < s.mq.size))
  | .remove _ => .isTrue trivial
  | .flush => .isTrue trivial

/-- What the callback of a flush has written down in the end. -/
theorem foldl_record (l a : List (Ptr × SizeT × Ptr)) :
    l.foldl (fun a x => a ++ [x]) a = a ++ l := by
  induction l generalizing a with
  | nil => simp
  | cons x l ih => rw [List.foldl_cons, ih]; simp

theorem fits_iff (h : mq.Holds ms) :
    mq.Fits m ↔ (queueText ms).length + m.text.length < mqueueSize := by
  rw [MQueue.Fits, h.size, h.end_eq]

/-- **One step**: the byte queue stays faithful exactly if the message is not refused. -/
theorem QueueRun.step_faithful_iff (s : QueueRun) (op : QueueOp) (h : s.Faithful) :
    (∃ s', s.step op = .ok s' ∧ s'.Faithful) ↔ s.Accepts op := by
  obtain ⟨mq, handed, ⟨pending, handed'⟩⟩ := s
  obtain ⟨hq, hh⟩ := h
  simp only at hq hh
  subst hh
  cases op with
  | queue m behind ppos =>
    constructor
    · rintro ⟨s', hs, hf⟩
      obtain ⟨mq', hok, hmq⟩ := Run.bind_eq_ok.mp hs
      cases hmq
      by_contra hfit
      exact queueDynmemAddr_refused hq hfit hok _ hf.holds
    · intro hfit
      obtain ⟨mq', hok, hholds⟩ := queueDynmemAddr_holds hq hfit behind ppos
      refine ⟨⟨mq', handed, _⟩, by simp only [step, hok, Run.ok_bind]; rfl, ?_, ?_⟩
      · simp only [MsgQueue.step, if_pos ((fits_iff hq).mp hfit)]
        exact hholds
      · simp only [MsgQueue.step, if_pos ((fits_iff hq).mp hfit)]
  | remove freeAddr =>
    refine iff_of_true ?_ trivial
    obtain ⟨mq', hok, hholds⟩ := removeMallocFromQueue_holds hq freeAddr
    exact ⟨⟨mq', handed, _⟩, by simp only [step, hok, Run.ok_bind]; rfl, hholds, rfl⟩
  | flush =>
    refine iff_of_true ?_ trivial
    have hmf : ∀ pp memAddr size offs codeAddr stackOffs a,
        recordMf pp memAddr size offs codeAddr stackOffs a =
          .ok ((fun a x => a ++ [x]) a (memAddr, size, codeAddr)) := fun _ _ _ _ _ _ _ => rfl
    obtain ⟨mq', hok, hholds⟩ := processMallocs_holds (f := fun a x => a ++ [x]) hq hmf handed
    rw [foldl_record] at hok
    exact ⟨⟨mq', _, _⟩, by simp only [step, hok, Run.ok_bind]; rfl, hholds, rfl⟩

/-- The queue at the start: `init_dmparams_early` only sets the first and the last byte. -/
structure MQueue.Fresh (mq : MQueue) : Prop where
  size : mq.size = mqueueSize
  empty : mq.end_ = 0
  first : mq.data[0]? = some nul

def QueueRun.init (mq : MQueue) : QueueRun := ⟨mq, [], ⟨[], []⟩⟩

theorem MQueue.Fresh.holds (h : mq.Fresh) : mq.Holds [] := by
  refine ⟨h.size, ?_, ?_, ?_⟩
  · rw [h.empty]; decide
  · rw [h.empty]; exact h.first
  · rw [h.empty]; rfl

/-- **The malloc queue over whole runs.** It is faithful after every step of a run exactly if the
run refuses no message. -/
theorem queue_faithful_iff (h : mq.Fresh) (ops : List QueueOp) :
    Run.Always QueueRun.step QueueRun.Faithful (.init mq) ops ↔
      Run.Each QueueRun.step QueueRun.Accepts (.init mq) ops :=
  Run.always_iff_each QueueRun.step_faithful_iff ⟨h.holds, rfl⟩

/-- A queue whose bytes are all `nul`. -/
def MQueue.empty : MQueue := ⟨List.replicate mqueueSize nul, 0⟩

theorem MQueue.empty_fresh : MQueue.empty.Fresh := by
  refine ⟨by simp [MQueue.empty, MQueue.size], rfl, ?_⟩
  rw [MQueue.empty, List.getElem?_replicate, if_pos (by decide)]

/-- Three messages, one of them taken out by a free, are handed over, and another one is queued. -/
def QueueOp.three : List QueueOp :=
  [.queue (HackMsg.allocMsg 0x20 7 0x400) [] 0, .queue (HackMsg.allocMsg 0x40 16 0x500) [] 0,
    .remove 0x20, .queue (HackMsg.allocMsg 0x60 8 0x400) [] 0, .flush,
    .queue (HackMsg.allocMsg 0x20 7 0x400) [] 0]

theorem queue_faithful_example :
    (Run.run QueueRun.step (.init .empty) QueueOp.three).map (·.handed) =
      .ok [(0x40, 16, 0x500), (0x60, 8, 0x400)] ∧
    Run.Always QueueRun.step QueueRun.Faithful (.init .empty) QueueOp.three :=
  ⟨by decide +kernel, (queue_faithful_iff MQueue.empty_fresh QueueOp.three).mpr (by decide +kernel)⟩

/-- The bytes of the pending messages, if none of `k` equal messages is refused. -/
theorem run_queue_bytes {s s' : QueueRun} {k : Nat}
    (h : Run.Always QueueRun.step QueueRun.Faithful s (List.replicate k (.queue m behind ppos)))
    (hrun : Run.run QueueRun.step s (List.replicate k (.queue m behind ppos)) = .ok s') :
    (queueText s'.spec.pending).length =
      (queueText s.spec.pending).length + k * m.text.length := by
  induction k generalizing s with
  | zero => cases hrun; simp
  | succ k ih =>
    rw [List.replicate_succ] at h hrun
    obtain ⟨hs, s₁, hstep, hrest⟩ := Run.always_cons.mp h
    rw [Run.run_cons_ok hstep] at hrun
    obtain ⟨s₀, h₀, hf⟩ := hrest [] List.nil_prefix
    cases h₀
    have hfit := (fits_iff hs.holds).mp
      ((s.step_faithful_iff _ hs).mp ⟨s₁, hstep, hf⟩ : s.mq.Fits m)
    have hspec : s₁.spec.pending = s.spec.pending ++ [m] := by
      obtain ⟨mq', -, heq⟩ := Run.bind_eq_ok.mp hstep
      cases heq
      simp only [MsgQueue.step, if_pos hfit]
    rw [ih hrest hrun, hspec, queueText_append, List.length_append, queueText_cons,
      queueText_nil, List.append_nil, Nat.succ_mul]
    omega

/-- A message of 16 bytes for an object of 7 bytes: 1023 of them fit, the next one is refused. -/
theorem queue_not_faithful : ¬ Run.Always QueueRun.step QueueRun.Faithful (.init .empty)
    (List.replicate 1024 (.queue (HackMsg.allocMsg 0x20 7 0x400) [] 0)) := by
  intro h
  obtain ⟨s', hrun, hf⟩ := h _ List.prefix_rfl
  have hbytes := run_queue_bytes h hrun
  have hlen : (HackMsg.allocMsg 0x20 7 0x400).text.length = 16 := by decide
  have hlt := hf.holds.end_lt
  have h0 : (queueText (QueueRun.init .empty).spec.pending).length = 0 := rfl
  have hsize : mqueueSize = 16384 := rfl
  rw [hf.holds.end_eq] at hlt
  omega

end UgTrain
