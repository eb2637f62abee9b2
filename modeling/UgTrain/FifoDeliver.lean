import UgTrain.FifoDecode

/-!
# Handing out messages

`Handles cb handle`: the callbacks do with a message that is read back what `handle` does with it.
What is still to be handed out is the rest in the receive buffer and the FIFO (`Unread`). One read
takes some messages off its front and runs `handle` over them, whatever the callbacks work on
(`readDynmemBuf_delivers`); what the game writes comes behind it (`Unread.append`).
-/

namespace UgTrain

open CLib

def ParseCb.Handles {σ : Type} (cb : ParseCb σ) (handle : σ → HackMsg → Except Fault σ) : Prop :=
  ∀ m : HackMsg, m.Ok → ∀ t : Str, ∃ call,
    scanMsg cb .sc 0 (m.encode ++ t) 0 m.body.length = .ok call ∧ ∀ a, cb.call call a = handle a m

/-- The messages that are not handed out yet: no complete one is in the buffer. -/
structure Unread (todo : List HackMsg) (b : ReadBuf) (fifo : Str) : Prop where
  buf : b.WF
  left : b.rest ++ fifo = encodeAll todo
  incomplete : '\n' ∉ b.rest

section Deliver

variable {σ : Type} {cb : ParseCb σ} {handle : σ → HackMsg → Except Fault σ} {n : Nat} {c c' l : Str}
  {todo ms : List HackMsg} {b : ReadBuf} {fifo : Str}

/-- A complete line, whatever its callback does. -/
theorem parseLoop_call (hl : IsLine l) (hn : (l ++ '\n' :: c').length ≤ n) {call : Call}
    (hs : scanMsg cb .sc 0 (padded n (l ++ '\n' :: c')) 0 l.length = .ok call) (t : Nat) (a : σ) :
    parseLoop cb .sc 0 (padded n (l ++ '\n' :: c')) (l ++ '\n' :: c').length t a =
      cb.call call a >>= parseLoop cb .sc 0 (padded n c') c'.length (l.length + 1) := by
  cases hc : cb.call call a with
  | ok a' => exact parseLoop_line hl hn hs hc
  | error e =>
    rw [parseLoop, strchr_padded newline_ne_nul, strchr_line hl]
    simp only [hs, hc]
    rfl

/-- **The message loop on complete messages** is a run of the handler over them. -/
theorem parseLoop_delivers (hcb : cb.Handles handle) (hno : '\n' ∉ c') :
    ∀ (ms : List HackMsg), (∀ m ∈ ms, m.Ok) → (encodeAll ms ++ c').length ≤ n → ∀ (t : Nat) (a : σ),
      ∃ t', parseLoop cb .sc 0 (padded n (encodeAll ms ++ c')) (encodeAll ms ++ c').length t a =
        (Run.run handle a ms).map fun a' => ⟨t', padded n c', c'.length, none, a'⟩ := by
  intro ms
  induction ms with
  | nil =>
    intro _ _ t a
    have hnone : strchr c' '\n' = none := by
      rw [strchr_eq_none newline_ne_nul]
      exact fun hmem => hno ((List.takeWhile_prefix _).subset hmem)
    exact ⟨t, by rw [encodeAll_nil, List.nil_append, parseLoop_none hnone]; rfl⟩
  | cons m ms ih =>
    intro hms hlen t a
    have hm := hms m List.mem_cons_self
    have hform : encodeAll (m :: ms) ++ c' = m.body ++ '\n' :: (encodeAll ms ++ c') := by
      simp [HackMsg.encode]
    obtain ⟨call, hs, hcall⟩ := hcb m hm
      (encodeAll ms ++ c' ++ List.replicate (n - (encodeAll (m :: ms) ++ c').length) nul)
    have hpad : padded n (m.body ++ '\n' :: (encodeAll ms ++ c')) = m.encode ++
        (encodeAll ms ++ c' ++ List.replicate (n - (encodeAll (m :: ms) ++ c').length) nul) := by
      rw [padded, ← hform]
      simp
    rw [← hpad] at hs
    rw [hform] at hlen ⊢
    have hlen' : (encodeAll ms ++ c').length ≤ n := by
      rw [List.length_append, List.length_cons] at hlen
      omega
    rw [parseLoop_call (m.isLine hm) hlen hs, hcall, Run.run_cons]
    cases ha : handle a m with
    | error e => exact ⟨0, rfl⟩
    | ok a' =>
      obtain ⟨t', ht'⟩ := ih (fun m' h' => hms m' (List.mem_cons_of_mem _ h')) hlen'
        (m.body.length + 1) a'
      exact ⟨t', ht'⟩

/-- The complete messages at the start of a stream. -/
theorem split_stream (hms : ∀ m ∈ todo, m.Sent) {s : Str} (h : c ++ s = encodeAll todo) :
    ∃ ms c', ms <+: todo ∧ c = encodeAll ms ++ c' ∧ '\n' ∉ c' := by
  obtain ⟨-, ms, c', -, hpre, hc, hno⟩ := parseLoop_decodes 0 todo hms c s 0 [] h le_rfl
  exact ⟨ms, c', hpre, hc, hno⟩

/-- **A text is that of one sequence of messages.** -/
theorem prefix_of_encodeAll (hms : ∀ m ∈ ms, m.Sent) (htodo : ∀ m ∈ todo, m.Sent)
    (h : encodeAll ms <+: encodeAll todo) : ms <+: todo := by
  obtain ⟨s, hs⟩ := h
  obtain ⟨t₁, ms₁, c₁, hloop₁, ⟨rest, hrest⟩, hc₁, hno₁⟩ :=
    parseLoop_decodes 0 ms hms (encodeAll ms) [] 0 [] (List.append_nil _) le_rfl
  obtain ⟨t₂, ms₂, c₂, hloop₂, hpre, -, -⟩ :=
    parseLoop_decodes 0 todo htodo (encodeAll ms) s 0 [] hs le_rfl
  have hsame : ms₁ = ms₂ := by
    have hacc := congrArg (Except.map fun r => r.acc) (hloop₁.symm.trans hloop₂)
    exact Except.ok.inj hacc
  obtain rfl : rest = [] := by
    cases rest with
    | nil => rfl
    | cons m rest =>
      rw [← hrest, encodeAll_append] at hc₁
      rw [← List.append_cancel_left hc₁, encodeAll_cons] at hno₁
      exact absurd (by simp [HackMsg.encode]) hno₁
  rw [← hrest, List.append_nil, hsame]
  exact hpre

/-- **One read** hands out the messages that are complete then, in order. -/
theorem readDynmemBuf_delivers (hcb : cb.Handles handle) (hms : ∀ m ∈ todo, m.Sent)
    (h : Unread todo b fifo) {n : Nat} (hn : n ≤ b.maxRead) :
    ∃ ms todo' b', todo = ms ++ todo' ∧ Unread todo' b' (fifo.drop n) ∧ ∀ a, ∃ ret,
      readDynmemBuf cb .sc 0 b (fifo.take n) a = (Run.run handle a ms).map fun a' => (ret, b', a') := by
  by_cases hin : fifo.take n = []
  · refine ⟨[], todo, b, rfl, ?_, fun a => ⟨-1, by rw [hin, readDynmemBuf_nil]; rfl⟩⟩
    have hdrop : fifo.drop n = fifo := by
      have := List.take_append_drop n fifo
      rwa [hin, List.nil_append] at this
    rwa [hdrop]
  · obtain ⟨heq, hlt⟩ := h.buf.eq
    have hlen : (b.rest ++ fifo.take n).length < pipeBuf := by
      have hmax : b.maxRead = pipeBuf - 1 - b.rest.length := by
        have hilen : b.ilen = b.rest.length := congrArg ReadBuf.ilen heq
        rw [ReadBuf.maxRead, h.buf.length, hilen]
      rw [List.length_append, List.length_take]
      omega
    have hstream : b.rest ++ fifo.take n ++ fifo.drop n = encodeAll todo := by
      rw [List.append_assoc, List.take_append_drop, h.left]
    obtain ⟨ms, c', ⟨todo', htodo⟩, hc, hno⟩ := split_stream hms hstream
    refine ⟨ms, todo', ⟨padded pipeBuf c', c'.length⟩, htodo.symm, ⟨ReadBuf.wf_padded ?_, ?_, ?_⟩,
      fun a => ?_⟩
    · rw [hc, List.length_append] at hlen
      omega
    · rw [hc, ← htodo, encodeAll_append, List.append_assoc] at hstream
      rw [ReadBuf.rest_padded]
      exact List.append_cancel_left hstream
    · rw [ReadBuf.rest_padded]
      exact hno
    · have hok : ∀ m ∈ ms, m.Ok := fun m hm => (hms m (htodo ▸ List.mem_append_left _ hm)).1
      have hle : (encodeAll ms ++ c').length ≤ pipeBuf := by
        rw [← hc]
        exact hlen.le
      obtain ⟨t', ht'⟩ := parseLoop_delivers hcb hno ms hok hle (fifo.take n).length a
      refine ⟨t', ?_⟩
      rw [heq, readDynmemBuf_padded hin (by rw [← List.length_append]; exact hlen.le), hc, ht']
      cases Run.run handle a ms <;> rfl

theorem Unread.append (h : Unread todo b fifo) (ms : List HackMsg) :
    Unread (todo ++ ms) b (fifo ++ encodeAll ms) :=
  ⟨h.buf, by rw [← List.append_assoc, h.left, encodeAll_append], h.incomplete⟩

theorem Unread.init (ms : List HackMsg) : Unread ms .init (encodeAll ms) := by
  refine ⟨ReadBuf.wf_padded (c := []) (by decide), rfl, ?_⟩
  rw [show ReadBuf.init.rest = [] from rfl]
  exact List.not_mem_nil

/-- When the FIFO is empty, all messages are handed out. -/
theorem Unread.drained (h : Unread todo b []) : todo = [] := by
  cases todo with
  | nil => rfl
  | cons m ms =>
    have hno := h.incomplete
    have hleft := h.left
    rw [List.append_nil] at hleft
    rw [hleft, encodeAll_cons] at hno
    exact absurd (by simp [HackMsg.encode]) hno

end Deliver

end UgTrain
