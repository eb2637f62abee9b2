import UgTrain.Attribution
import UgTrain.EarlyAslr
import UgTrain.FifoDeliver
import UgTrain.LateAgree
import UgTrain.LoopTracks
import UgTrain.MemHooks
import UgTrain.ObjRows

/-!
# The game and ugtrain

The game calls hooked functions, libmemhack writes messages into the FIFO, and ugtrain reads them
while it goes through its main loop. `System.step` is one call of the game, or one step of ugtrain: one
read from the FIFO where the main loop reads it, one phase of the main loop elsewhere. A run is any
interleaving of these.

* `live` are the objects that the messages handed out so far tell of, and which of them an object
  check has kicked.
* `System.Behind s todo`: ugtrain holds these objects, and is behind the game by the messages `todo`.
* `run_follows`: so it is in every run in which the malloc queue has room, until the program ends.

The game loads no library of the config late: its code addresses stay as they are.
-/

namespace UgTrain

open CLib

/-! ## The callbacks -/

/-- Behind the end of the program no message is handled. -/
def unlessStopped (a : Trainer × List LiveObj) (f : Except Fault (Trainer × List LiveObj)) :
    Except Fault (Trainer × List LiveObj) :=
  if a.1.phase = .stopped then .ok a else f

/-- The callbacks of `read_dynmem_fifo`. -/
def trackCb (rlist : List Region) : ParseCb (Trainer × List LiveObj) where
  mf := some fun pp memAddr memSize _ _ _ a => unlessStopped a do
    let mq ← queueDynmemAddr pp a.1.mq
    return ({ a.1 with mq := mq }, ⟨memAddr, memSize, false⟩ :: a.2)
  ff := some fun memAddr a => unlessStopped a do
    let (cfg, mq) ← clearDynmemAddr a.1.opt.toCfgMem a.1.mq memAddr
    return ({ a.1.setCfg cfg with mq := mq }, a.2.filter (·.memAddr ≠ memAddr))
  lf := some fun libName a => unlessStopped a do
    let t ← a.1.handleMsg (.lib libName rlist)
    return (t, a.2)
  sf := some fun stackEnd a => unlessStopped a do
    let t ← a.1.handleMsg (.stackEnd stackEnd)
    return (t, a.2)

/-- What the callbacks do with a message of libmemhack. -/
def trackMsg (rlist : List Region) (a : Trainer × List LiveObj) (m : HackMsg) :
    Except Fault (Trainer × List LiveObj) :=
  unlessStopped a <| match m with
  | .malloc memAddr size codeAddr => do
    let t ← a.1.handleMsg (.malloc (HackMsg.allocMsg memAddr size codeAddr) [] 0)
    return (t, ⟨memAddr, size, false⟩ :: a.2)
  | .free memAddr => do
    let (cfg, mq) ← clearDynmemAddr a.1.opt.toCfgMem a.1.mq memAddr
    return ({ a.1.setCfg cfg with mq := mq }, a.2.filter (·.memAddr ≠ memAddr))
  | .lib libName => do
    let t ← a.1.handleMsg (.lib libName rlist)
    return (t, a.2)
  | .stackEnd stackEnd => do
    let t ← a.1.handleMsg (.stackEnd stackEnd)
    return (t, a.2)

/-! ## The system -/

structure System where
  game : Game
  fifo : Str
  buf : ReadBuf
  trainer : Trainer
  live : List LiveObj

/-- A call of the game, or a step of ugtrain while `avail` bytes can be read from the FIFO. -/
inductive SystemInput where
  | game (call : HookCall)
  | loop (i : LoopInput) (avail : Nat)

/-- The main loop is where it reads the FIFO. -/
def Trainer.reads (s : Trainer) : Bool :=
  (s.phase = .fifo || s.phase = .fifoAgain) && !s.pureStatmem

namespace System

/-- One phase of the main loop. In the phases that read the FIFO, nothing is read any more. -/
def phaseStep (chunk : Nat) (s : System) (i : LoopInput) : Except Fault System := do
  let t ← s.trainer.step chunk { i with msgs := [] }
  return { s with trainer := t, live := s.trainer.liveAfter t s.live }

def step (chunk : Nat) (s : System) : SystemInput → Except Fault System
  | .game call => do
    let g ← s.game.call call
    return { s with
      game := g
      fifo := s.fifo ++ encodeAll (g.hack.sent.drop s.game.hack.sent.length) }
  | .loop i avail => do
    if s.trainer.reads then
      -- `do { .. } while (rbytes > 0)`
      let n := min avail s.buf.maxRead
      let (rbytes, buf, t, live) ←
        readDynmemBuf (trackCb i.rlist) .sc 0 s.buf (s.fifo.take n) (s.trainer, s.live)
      let s := { s with fifo := s.fifo.drop n, buf := buf, trainer := t, live := live }
      if 0 < rbytes then return s
      s.phaseStep chunk i
    else s.phaseStep chunk i

/-- No message of the read is refused: each allocation fits into the malloc queue as the messages
before it have left it. -/
def QueueFits (s : System) (rlist : List Region) (n : Nat) : Prop :=
  ∀ (ms : List HackMsg) (memAddr : Ptr) (size : SizeT) (codeAddr : Ptr) (a : Trainer × List LiveObj),
    (∀ m ∈ ms, m.Sent) →
    encodeAll (ms ++ [.malloc memAddr size codeAddr]) <+: s.buf.rest ++ s.fifo.take n →
    Run.run (trackMsg rlist) (s.trainer, s.live) ms = .ok a → a.1.phase ≠ .stopped →
    a.1.mq.Fits (HackMsg.allocMsg memAddr size codeAddr)

/-- The game uses the allocator properly, and what ugtrain reads fits into the malloc queue. -/
def Proper (s : System) : SystemInput → Prop
  | .game call => s.game.Proper call
  | .loop i avail => s.trainer.reads → s.QueueFits i.rlist (min avail s.buf.maxRead)

/-- The game has read its config and told its stack end. -/
def start (config : List HackCfg) (stackEnd : Ptr) (trainer : Trainer) : System where
  game := .start config stackEnd
  fifo := encodeAll [.stackEnd stackEnd]
  buf := .init
  trainer := trainer
  live := []

end System

def objsOf (live : List LiveObj) : List (Ptr × SizeT) := live.map fun o => (o.memAddr, o.memSize)

/-- **ugtrain is behind the game** by the messages `todo`. -/
structure System.Behind (s : System) (todo : List HackMsg) : Prop where
  game : s.game.Inv
  unread : Unread todo s.buf s.fifo
  sent : ∀ m ∈ todo, m.From s.game.hack.config
  news : AllNews (objsOf s.live) todo
  told : tellAll (objsOf s.live) todo = Game.reported s.game.heap
  tracks : s.trainer.Tracks s.live (s.game.hack.config.flatMap (·.codeAddrs))

/-! ## Messages -/

section Messages

variable {rlist : List Region} {a a' : Trainer × List LiveObj} {m : HackMsg} {ms : List HackMsg}
  {config : List HackCfg} {codes : List Ptr} {live : List LiveObj} {memAddr : Ptr} {mq : MQueue}

/-- The callback only copies the line of the message. -/
theorem queueDynmemAddr_postParse (m : AllocMsg) (behind : Str) (ppos : Nat) (mq : MQueue) :
    queueDynmemAddr (m.postParse behind ppos) mq = queueDynmemAddr (m.postParse [] 0) mq := by
  unfold queueDynmemAddr
  rw [cstr_postParse, cstr_postParse]

/-- **The callbacks** handle the messages of libmemhack. -/
theorem trackCb_handles (rlist : List Region) : (trackCb rlist).Handles (trackMsg rlist) := by
  intro m hm t
  obtain ⟨call, hs, hcall⟩ := scanMsg_encode m hm 0 t []
  cases m with
  | malloc memAddr size codeAddr =>
    obtain ⟨ppos, he⟩ := scanMalloc_encode 0 memAddr codeAddr size t
      (HackMsg.malloc memAddr size codeAddr).body.length
    refine ⟨_, he, fun a => ?_⟩
    have hq := queueDynmemAddr_postParse (HackMsg.allocMsg memAddr size codeAddr) t ppos a.1.mq
    show unlessStopped a _ = unlessStopped a _
    refine congrArg (unlessStopped a) ?_
    show (queueDynmemAddr ((HackMsg.allocMsg memAddr size codeAddr).postParse t ppos) a.1.mq >>= _) = _
    rw [hq]
    simp only [Trainer.handleMsg]
    cases queueDynmemAddr ((HackMsg.allocMsg memAddr size codeAddr).postParse [] 0) a.1.mq <;> rfl
  | free memAddr =>
    refine ⟨.ff memAddr, ?_, fun a => rfl⟩
    cases call <;> cases hcall
    exact hs
  | lib libName =>
    refine ⟨.lf libName, ?_, fun a => rfl⟩
    cases call <;> cases hcall
    exact hs
  | stackEnd stackEnd =>
    refine ⟨.sf stackEnd, ?_, fun a => rfl⟩
    cases call <;> cases hcall
    exact hs

theorem length_printDec (n : SizeT) : (printDec n.toNat).length ≤ 20 := by
  have := Nat.toDigits_length 10 n.toNat 20 (by decide) (by omega)
  exact this

/-- A report of an allocation fits into the receive buffer. -/
theorem sent_malloc (memAddr : Ptr) (size : SizeT) (codeAddr : Ptr) :
    (HackMsg.malloc memAddr size codeAddr).Sent := by
  have h₁ := length_printHex memAddr
  have h₂ := length_printHex codeAddr
  have h₃ := length_printDec size
  rw [HackMsg.Sent, HackMsg.encode_length]
  refine ⟨trivial, ?_⟩
  unfold pipeBuf
  simp only [HackMsg.body, List.length_append, List.length_cons]
  omega

/-- Messages about objects fit into the receive buffer. -/
theorem sent_of_from (hm : m.From config) : m.Sent := by
  cases m with
  | malloc memAddr size codeAddr => exact sent_malloc memAddr size codeAddr
  | free memAddr =>
    have h₁ := length_printHex memAddr
    rw [HackMsg.Sent, HackMsg.encode_length]
    refine ⟨trivial, ?_⟩
    unfold pipeBuf
    simp only [HackMsg.body, List.length_cons]
    omega
  | lib libName => exact hm.elim
  | stackEnd stackEnd =>
    have h₁ := length_printHex stackEnd
    rw [HackMsg.Sent, HackMsg.encode_length]
    refine ⟨hm, ?_⟩
    unfold pipeBuf
    simp only [HackMsg.body, List.length_cons]
    omega

/-- What has to hold of a message for the tracking: it is news, its code address is known, and it fits
into the queue. -/
structure Tells (a : Trainer × List LiveObj) (codes : List Ptr) (m : HackMsg) : Prop where
  news : m.News (objsOf a.2)
  known : ∀ memAddr size codeAddr, m = .malloc memAddr size codeAddr → codeAddr ∈ codes
  notLib : ∀ libName, m ≠ .lib libName
  fits : ∀ memAddr size codeAddr, m = .malloc memAddr size codeAddr →
    a.1.mq.Fits (HackMsg.allocMsg memAddr size codeAddr)

/-- What the message leaves: the objects that it tells of. -/
structure Told (a a' : Trainer × List LiveObj) (codes : List Ptr) (m : HackMsg) : Prop where
  tracks : a'.1.Tracks a'.2 codes
  objs : objsOf a'.2 = m.tell (objsOf a.2)

/-- An allocation that is queued. -/
theorem malloc_told {size : SizeT} {codeAddr : Ptr} (ht : a.1.Tracks a.2 codes)
    (hm : Tells a codes (.malloc memAddr size codeAddr))
    (h : a.1.handleMsg (.malloc (HackMsg.allocMsg memAddr size codeAddr) [] 0) = .ok a'.1)
    (ha : a'.2 = ⟨memAddr, size, false⟩ :: a.2) :
    Told a a' codes (.malloc memAddr size codeAddr) := by
  obtain ⟨ms, hinv⟩ := ht.inv
  obtain ⟨mq, hq, h⟩ := Run.bind_eq_ok.mp h
  have hnew : ∀ o ∈ a.2, o.memAddr ≠ memAddr := fun o ho => hm.news.2 _ (List.mem_map_of_mem ho)
  obtain ⟨s', hs', hinv'⟩ := step_alloc hinv [] 0 ⟨hm.news.1, hnew,
    ht.knows codeAddr (hm.known memAddr size codeAddr rfl), hm.fits memAddr size codeAddr rfl⟩
  simp only [ObjRun.step, hq, Run.ok_bind] at hs'
  cases hs'
  have hfst : a'.1 = { a.1 with mq := mq } := (Except.ok.inj h).symm
  refine ⟨⟨?_, ?_⟩, ?_⟩
  · rw [hfst, ha]
    exact ⟨_, hinv'⟩
  · rw [hfst]
    exact ht.knows
  · rw [ha]
    rfl

/-- An object that is freed. -/
theorem free_told {cfg : CfgMem} (ht : a.1.Tracks a.2 codes)
    (hm : Tells a codes (.free memAddr))
    (h : clearDynmemAddr a.1.opt.toCfgMem a.1.mq memAddr = .ok (cfg, mq))
    (h₁ : a'.1 = { a.1.setCfg cfg with mq := mq })
    (h₂ : a'.2 = a.2.filter (·.memAddr ≠ memAddr)) : Told a a' codes (.free memAddr) := by
  obtain ⟨ms, hinv⟩ := ht.inv
  obtain ⟨h0, o, ho, heq⟩ := hm.news
  obtain ⟨o', ho', rfl⟩ := List.mem_map.mp ho
  obtain ⟨s', ms', hs', hinv'⟩ := step_free hinv ⟨h0, o', ho', heq⟩
  simp only [ObjRun.step, h, Run.ok_bind] at hs'
  cases hs'
  have hrules : a.1.opt.SameRules cfg := by
    obtain ⟨⟨removed, mq₁⟩, -, hc⟩ := Run.bind_eq_ok.mp h
    dsimp only at hc
    split at hc <;> cases hc
    · exact .refl _
    · exact sameRules_clearObjs _ _
  refine ⟨⟨?_, ?_⟩, ?_⟩
  · rw [h₁, h₂]
    exact ⟨ms', hinv'⟩
  · rw [h₁]
    exact ht.knows.of_sameRules hrules
  · rw [h₂, HackMsg.tell, objsOf, objsOf, List.filter_map]
    rfl

/-- **A message** is handled. -/
theorem trackMsg_told (ht : a.1.Tracks a.2 codes) (hm : Tells a codes m)
    (hne : a.1.phase ≠ .stopped) (h : trackMsg rlist a m = .ok a') : Told a a' codes m := by
  unfold trackMsg unlessStopped at h
  rw [if_neg hne] at h
  cases m with
  | malloc memAddr size codeAddr =>
    obtain ⟨t, h₁, h⟩ := Run.bind_eq_ok.mp h
    cases h
    exact malloc_told ht hm h₁ rfl
  | free memAddr =>
    obtain ⟨x, h₁, h⟩ := Run.bind_eq_ok.mp h
    cases h
    exact free_told ht hm h₁ rfl rfl
  | lib libName => exact absurd rfl (hm.notLib libName)
  | stackEnd addr =>
    obtain ⟨t, h₁, h⟩ := Run.bind_eq_ok.mp h
    cases h
    simp only [Trainer.handleMsg] at h₁
    split at h₁
    · cases h₁
      exact ⟨ht, rfl⟩
    · split at h₁
      · obtain ⟨opt, hopt, h₁⟩ := Run.bind_eq_ok.mp h₁
        cases h₁
        have hk := processStackEnd_keeps hopt
        refine ⟨ht.of_same rfl (hk.sameTracks ?_), rfl⟩
        unfold processStackEnd at hopt
        split at hopt
        · obtain ⟨x, -, hopt⟩ := Run.bind_eq_ok.mp hopt
          cases hopt
          rfl
        · cases hopt
          rfl
      · cases h₁
        exact ⟨ht.of_same rfl (.refl _), rfl⟩

end Messages

/-! ## Runs of messages -/

section Runs

variable {rlist : List Region} {a a' : Trainer × List LiveObj} {m : HackMsg} {ms : List HackMsg}
  {config : List HackCfg} {codes : List Ptr}

theorem run_trackMsg_stopped (hs : a.1.phase = .stopped) (ms : List HackMsg) :
    Run.run (trackMsg rlist) a ms = .ok a := by
  induction ms with
  | nil => rfl
  | cons m ms ih =>
    have hm : trackMsg rlist a m = .ok a := if_pos hs
    rw [Run.run_cons_ok hm, ih]

/-- **Messages in order** are handled one after the other, unless one ends the program. -/
theorem run_trackMsg_told (hcodes : codes = config.flatMap (·.codeAddrs))
    (ht : a.1.Tracks a.2 codes) (hfrom : ∀ m ∈ ms, m.From config) (hnews : AllNews (objsOf a.2) ms)
    (hfits : ∀ pre memAddr size codeAddr post a₁, ms = pre ++ .malloc memAddr size codeAddr :: post →
      Run.run (trackMsg rlist) a pre = .ok a₁ → a₁.1.phase ≠ .stopped →
      a₁.1.mq.Fits (HackMsg.allocMsg memAddr size codeAddr))
    (h : Run.run (trackMsg rlist) a ms = .ok a') :
    a'.1.phase = .stopped ∨ a'.1.Tracks a'.2 codes ∧ objsOf a'.2 = tellAll (objsOf a.2) ms := by
  induction ms generalizing a with
  | nil =>
    cases h
    exact .inr ⟨ht, rfl⟩
  | cons m ms ih =>
    obtain ⟨a₁, h₁, h⟩ := Run.bind_eq_ok.mp h
    by_cases hs : a₁.1.phase = .stopped
    · cases (run_trackMsg_stopped hs ms).symm.trans h
      exact .inl hs
    · by_cases hs₀ : a.1.phase = .stopped
      · have hm : trackMsg rlist a m = .ok a := if_pos hs₀
        cases hm.symm.trans h₁
        exact absurd hs₀ hs
      · obtain ⟨hm, hms⟩ := hnews
        obtain ⟨hmfrom, hmsfrom⟩ := List.forall_mem_cons.mp hfrom
        have htells : Tells a codes m := by
          refine ⟨hm, ?_, ?_, ?_⟩
          · rintro memAddr size codeAddr rfl
            exact hcodes ▸ hmfrom
          · rintro libName rfl
            exact hmfrom
          · rintro memAddr size codeAddr rfl
            exact hfits [] memAddr size codeAddr ms a rfl rfl hs₀
        obtain ⟨ht₁, hobjs⟩ := trackMsg_told ht htells hs₀ h₁
        rw [← hobjs] at hms
        have hfits₁ : ∀ pre memAddr size codeAddr post a₂,
            ms = pre ++ .malloc memAddr size codeAddr :: post →
            Run.run (trackMsg rlist) a₁ pre = .ok a₂ → a₂.1.phase ≠ .stopped →
            a₂.1.mq.Fits (HackMsg.allocMsg memAddr size codeAddr) := by
          rintro pre memAddr size codeAddr post a₂ rfl hpre
          exact hfits (m :: pre) memAddr size codeAddr post a₂ rfl (by rw [Run.run_cons_ok h₁, hpre])
        rcases ih ht₁ hmsfrom hms hfits₁ h with hstop | ⟨ht', hobjs'⟩
        · exact .inl hstop
        · refine .inr ⟨ht', ?_⟩
          rw [hobjs', hobjs]
          rfl

end Runs

/-! ## Steps -/

section Steps

variable {chunk : Nat} {s s' : System} {todo : List HackMsg} {call : HookCall} {i : LoopInput}
  {avail : Nat}

/-- **A call of the game** puts ugtrain further behind. -/
theorem game_behind (hb : s.Behind todo) (hp : s.game.Proper call)
    (h : s.step chunk (.game call) = .ok s') : ∃ ms, s'.Behind (todo ++ ms) := by
  obtain ⟨g, ms, hok, hinv, hcfg, hsent, hfrom, hnews, htell⟩ := call_reports hb.game hp
  obtain ⟨g', hg', h⟩ := Run.bind_eq_ok.mp h
  cases hok.symm.trans hg'
  cases h
  have hdrop : g.hack.sent.drop s.game.hack.sent.length = ms := by
    rw [hsent, List.drop_left]
  refine ⟨ms, hinv, ?_, ?_, ?_, ?_, ?_⟩
  · rw [hdrop]
    exact hb.unread.append ms
  · intro m hm
    rw [hcfg]
    exact (List.mem_append.mp hm).elim (hb.sent m) (hfrom m)
  · rw [allNews_append, hb.told]
    exact ⟨hb.news, hnews⟩
  · rw [tellAll_append, hb.told, htell]
  · rw [hcfg]
    exact hb.tracks

theorem objsOf_liveAfter (t t' : Trainer) (live : List LiveObj) :
    objsOf (t.liveAfter t' live) = objsOf live := by
  unfold Trainer.liveAfter
  split
  · exact map_markKicked _ _ live
  · rfl

/-- **A phase** of the main loop hands out nothing. -/
theorem phase_behind (hb : s.Behind todo) (h : s.phaseStep chunk i = .ok s') : s'.Behind todo := by
  obtain ⟨t, ht, h⟩ := Run.bind_eq_ok.mp h
  cases h
  refine ⟨hb.game, hb.unread, hb.sent, ?_, ?_, step_tracks ht hb.tracks⟩
  · rw [objsOf_liveAfter]
    exact hb.news
  · rw [objsOf_liveAfter]
    exact hb.told

theorem phaseStep_stopped (hs : s.trainer.phase = .stopped) (h : s.phaseStep chunk i = .ok s') :
    s'.trainer.phase = .stopped := by
  obtain ⟨t, ht, h⟩ := Run.bind_eq_ok.mp h
  cases h
  unfold Trainer.step at ht
  simp only [hs] at ht
  cases ht
  exact hs

/-- **A read** hands out messages, the oldest first. -/
theorem read_behind (hb : s.Behind todo) {n : Nat} (hn : n ≤ s.buf.maxRead)
    {rlist : List Region} (hfits : s.QueueFits rlist n) {r : Int × ReadBuf × Trainer × List LiveObj}
    (h : readDynmemBuf (trackCb rlist) .sc 0 s.buf (s.fifo.take n) (s.trainer, s.live) = .ok r) :
    r.2.2.1.phase = .stopped ∨ ∃ ms todo', todo = ms ++ todo' ∧
      System.Behind { s with
        fifo := s.fifo.drop n, buf := r.2.1, trainer := r.2.2.1, live := r.2.2.2 } todo' := by
  obtain ⟨ms, todo', b', rfl, hunread, hread⟩ := readDynmemBuf_delivers (trackCb_handles rlist)
    (fun m hm => sent_of_from (hb.sent m hm)) hb.unread hn
  obtain ⟨ret, hret⟩ := hread (s.trainer, s.live)
  rw [hret] at h
  obtain ⟨a', hrun, rfl⟩ := Run.exists_ok_of_map h
  obtain ⟨hnews, hnews'⟩ := allNews_append.mp hb.news
  -- the messages that are handed out are in what is read
  have hread : s.buf.rest ++ s.fifo.take n = encodeAll ms ++ b'.rest := by
    have hleft := hb.unread.left
    rw [encodeAll_append, ← hunread.left, ← List.append_assoc] at hleft
    conv_lhs at hleft => rw [← List.take_append_drop n s.fifo, ← List.append_assoc]
    exact List.append_cancel_right hleft
  obtain hstop | ⟨ht, hobjs⟩ := run_trackMsg_told rfl hb.tracks
    (fun m hm => hb.sent m (List.mem_append_left _ hm)) hnews (by
      rintro pre memAddr size codeAddr post a₁ rfl hpre
      refine hfits pre memAddr size codeAddr a₁
        (fun m hm => sent_of_from (hb.sent m (by simp [hm]))) ?_ hpre
      rw [hread]
      exact ⟨encodeAll post ++ b'.rest, by simp [encodeAll_append, encodeAll_cons]⟩) hrun
  · exact .inl hstop
  · refine .inr ⟨ms, todo', rfl, hb.game, hunread,
      fun m hm => hb.sent m (List.mem_append_right _ hm), ?_, ?_, ht⟩
    · rw [hobjs]
      exact hnews'
    · rw [hobjs, ← tellAll_append]
      exact hb.told

/-- Either the program has ended, or ugtrain is behind the game by some messages. -/
def System.Follows (s : System) : Prop :=
  s.trainer.phase = .stopped ∨ ∃ todo, s.Behind todo

theorem phase_follows (hs : s.Follows) (h : s.phaseStep chunk i = .ok s') : s'.Follows :=
  hs.imp (phaseStep_stopped · h) fun ⟨todo, hb⟩ => ⟨todo, phase_behind hb h⟩

/-- **Every step**, of the game or of ugtrain. -/
theorem step_follows {input : SystemInput} (hs : s.Follows) (hp : s.Proper input)
    (h : s.step chunk input = .ok s') : s'.Follows := by
  cases input with
  | game call =>
    rcases hs with hstop | ⟨todo, hb⟩
    · obtain ⟨g, -, h⟩ := Run.bind_eq_ok.mp h
      cases h
      exact .inl hstop
    · obtain ⟨ms, hb'⟩ := game_behind hb hp h
      exact .inr ⟨_, hb'⟩
  | loop i avail =>
    unfold System.step at h
    dsimp only at h
    split at h
    · rename_i hreads
      obtain ⟨r, hr, h⟩ := Run.bind_eq_ok.mp h
      have hmid : System.Follows { s with
          fifo := s.fifo.drop (min avail s.buf.maxRead), buf := r.2.1, trainer := r.2.2.1,
          live := r.2.2.2 } := by
        rcases hs with hstop | ⟨todo, hb⟩
        · simp [Trainer.reads, hstop] at hreads
        · rcases read_behind hb (min_le_right _ _) (hp hreads) hr with hstop | ⟨ms, todo', -, hb'⟩
          · exact .inl hstop
          · exact .inr ⟨todo', hb'⟩
      split at h
      · cases h
        exact hmid
      · exact phase_follows hmid h
    · exact phase_follows hs h

end Steps

/-! ## Runs -/

section Start

variable {config : List HackCfg} {stackEnd : Ptr} {t : Trainer} {chunk : Nat} {s : System}
  {is : List SystemInput}

/-- The classes take the allocations that libmemhack reports, if it holds the code addresses of
ugtrain. ugtrain does not look at the constructors of a class with a growth rule. An item whose library
is not loaded has the code address 0. -/
theorem knows_of_agrees {cfg : CfgMem} (h : List.Forall₂ HackCfg.Agrees config cfg.hackCfgs)
    (hrules : ∀ dm ∈ cfg.dynmems, dm.grow = none ∨ dm.consts = [])
    (h0 : 0 ∈ config.flatMap (·.codeAddrs) → Accepted cfg.entries cfg.dynmems 0) :
    cfg.Knows (config.flatMap (·.codeAddrs)) := by
  intro a ha
  by_cases hne : a = 0
  · subst hne
    exact h0 ha
  obtain ⟨hc, hmem, ha⟩ := List.mem_flatMap.mp ha
  obtain ⟨i, hi⟩ := List.mem_iff_getElem?.mp hmem
  obtain ⟨hc', hi', hag⟩ := Pointwise.getElem? h.flip hi
  obtain ⟨d, j, dm, -, hd, hr, hj⟩ := origin_of_hackCfgs hi'
  obtain ⟨⟨es, hes, -, hcode⟩, hgrow⟩ := hackCfgs_getElem? hj
  refine findDynmem_isSome.mpr ⟨d, dm, hr, hd, ?_⟩
  rcases List.mem_cons.mp ha with rfl | ha
  · rw [hag.codeAddr hne, hcode]
    refine accepts_own hes ?_
    rcases hrules dm (List.mem_of_getElem? hd) with hg | hk
    · exact .inr hg
    · have hlt := (List.getElem?_eq_some_iff.mp hes).1
      rw [DynMemEntry.essentials, hk] at hlt
      exact .inl (by simpa using hlt)
  · obtain ⟨g, hg, rfl⟩ := List.mem_map.mp ha
    obtain ⟨g', hg', heq⟩ := hag.grow g (Option.mem_toList.mp hg)
    obtain ⟨grow, hgr, heq'⟩ := hgrow g' hg'
    rw [heq hne, heq']
    exact accepts_grow hgr

theorem start_behind (hmq : t.mq.Fresh) (hobjs : t.opt.NoObjs)
    (hk : t.opt.Knows (config.flatMap (·.codeAddrs))) (hs : stackEnd ≠ 0) :
    (System.start config stackEnd t).Behind [.stackEnd stackEnd] := by
  refine ⟨start_inv config stackEnd, .init _, fun m hm => ?_, ⟨trivial, trivial⟩, rfl,
    ⟨[], init_inv hmq hobjs⟩, hk⟩
  rw [List.mem_singleton.mp hm]
  exact hs

/-- **ugtrain follows the game.** In every run in which the game uses its allocator properly and the
malloc queue has room, the queue and the classes hold the objects that the messages handed out tell of
(but not those that an object check has kicked), and what is still on its way makes them the blocks that
the game has now. -/
theorem run_follows (hmq : t.mq.Fresh) (hobjs : t.opt.NoObjs)
    (hagree : List.Forall₂ HackCfg.Agrees config t.opt.hackCfgs)
    (hrules : ∀ dm ∈ t.opt.dynmems, dm.grow = none ∨ dm.consts = [])
    (h0 : 0 ∈ config.flatMap (·.codeAddrs) → Accepted t.opt.entries t.opt.dynmems 0)
    (hs : stackEnd ≠ 0)
    (hp : Run.Each (System.step chunk) System.Proper (System.start config stackEnd t) is)
    (h : Run.run (System.step chunk) (System.start config stackEnd t) is = .ok s) :
    s.trainer.phase = .stopped ∨
      ObjRun.Tracked ⟨s.trainer.mq, s.trainer.opt.toCfgMem, s.live⟩ ∧
        ∃ todo, encodeAll todo = s.buf.rest ++ s.fifo ∧
          tellAll (objsOf s.live) todo = Game.reported s.game.heap ∧ (s.fifo = [] → todo = []) := by
  have hstart : (System.start config stackEnd t).Follows :=
    .inr ⟨_, start_behind hmq hobjs (knows_of_agrees hagree hrules h0) hs⟩
  obtain hstop | ⟨todo, hb⟩ :=
    Run.run_each (fun _ _ _ hf hp h => step_follows hf hp h) hstart hp h
  · exact .inl hstop
  · obtain ⟨ms, hinv⟩ := hb.tracks.inv
    refine .inr ⟨hinv.tracked, todo, hb.unread.left.symm, hb.told, fun hempty => ?_⟩
    have hunread := hb.unread
    rw [hempty] at hunread
    exact hunread.drained

/-- A read of whole messages: each allocation fits behind the messages before it. -/
theorem queueFits_of_todo {todo : List HackMsg} {rlist : List Region} {n : Nat}
    (hstream : s.buf.rest ++ s.fifo.take n = encodeAll todo) (htodo : ∀ m ∈ todo, m.Sent)
    (hfits : ∀ ms memAddr size codeAddr a, ms ++ [.malloc memAddr size codeAddr] <+: todo →
      Run.run (trackMsg rlist) (s.trainer, s.live) ms = .ok a →
      a.1.mq.Fits (HackMsg.allocMsg memAddr size codeAddr)) : s.QueueFits rlist n := by
  intro ms memAddr size codeAddr a hms hpre ha _
  refine hfits ms memAddr size codeAddr a (prefix_of_encodeAll ?_ htodo (hstream ▸ hpre)) ha
  intro m hm
  rcases List.mem_append.mp hm with hm | hm
  · exact hms m hm
  · rw [List.mem_singleton.mp hm]
    exact sent_malloc memAddr size codeAddr

/-- A game with a class at the code address 0x700, and ugtrain. -/
def System.fromGrow : System :=
  .start (CfgMem.single (.fromGrow [])).hackCfgs 0x7000 (.start (.single (.fromGrow [])) [0])

/-- A block of the class is allocated, ugtrain reads this, and the block is moved. -/
def SystemInput.moved : List SystemInput :=
  [.game (.malloc (.fromCode 0x700) 24 0x20 (fun _ => 0) [.free 0x30 []]),
    .loop (.idle fun _ => 0) 0, .loop (.idle fun _ => 0) 100,
    .game (.realloc (.fromCode 0x700) 0x20 40 0x60 (fun _ => 0) [])]

/-- The queue takes the block where ugtrain reads of it. -/
theorem moved_fits {s₂ : System}
    (h : Run.run (System.step 16) .fromGrow (SystemInput.moved.take 2) = .ok s₂) :
    s₂.QueueFits [] (min 100 s₂.buf.maxRead) := by
  obtain ⟨s, hs, hview⟩ := Run.exists_ok_of_map
    (x := Run.run (System.step 16) .fromGrow (SystemInput.moved.take 2))
    (f := fun s => (s.buf.rest ++ s.fifo.take (min 100 s.buf.maxRead),
      (Run.run (trackMsg []) (s.trainer, s.live) [.stackEnd 0x7000]).map fun a =>
        (a.1.mq.end_, a.1.mq.size)))
    (b := (encodeAll [.stackEnd 0x7000, .malloc 0x20 24 0x700], .ok (0, mqueueSize)))
    (by decide +kernel)
  cases hs.symm.trans h
  obtain ⟨hstream, hmq⟩ := Prod.mk.inj hview
  refine queueFits_of_todo hstream ?_ fun ms memAddr size codeAddr a hpre ha => ?_
  · intro m hm
    obtain rfl | rfl : m = .stackEnd 0x7000 ∨ m = .malloc 0x20 24 0x700 := by simpa using hm
    · exact @sent_of_from (.stackEnd 0x7000) [] (show (0x7000 : Ptr) ≠ 0 by decide)
    · exact sent_malloc 0x20 24 0x700
  · obtain ⟨rest, heq⟩ := hpre
    match ms, heq, ha with
    | _ :: _ :: ms, heq, _ => simp at heq
    | [m], heq, ha =>
      cases heq
      rw [ha] at hmq
      obtain ⟨hend, hsize⟩ := Prod.mk.inj (Except.ok.inj hmq)
      unfold MQueue.Fits
      rw [hend, hsize]
      decide

/-- ugtrain holds the block where it was, and is behind by two messages. -/
theorem run_follows_example : ∃ s, Run.run (System.step 16) .fromGrow SystemInput.moved = .ok s ∧
    objsOf s.live = [(0x20, 24)] ∧ Game.reported s.game.heap = [(0x60, 40)] ∧
    ObjRun.Tracked ⟨s.trainer.mq, s.trainer.opt.toCfgMem, s.live⟩ ∧
    ∃ todo, encodeAll todo = s.buf.rest ++ s.fifo ∧ tellAll [(0x20, 24)] todo = [(0x60, 40)] := by
  obtain ⟨s, hs, hview⟩ := Run.exists_ok_of_map
    (x := Run.run (System.step 16) .fromGrow SystemInput.moved)
    (f := fun s => (decide (s.trainer.phase = .stopped), objsOf s.live, Game.reported s.game.heap))
    (b := (false, [(0x20, 24)], [(0x60, 40)])) (by decide +kernel)
  simp only [Prod.mk.injEq, decide_eq_false_iff_not] at hview
  obtain ⟨hrunning, hlive, hheap⟩ := hview
  have hproper : Run.Each (System.step 16) System.Proper .fromGrow SystemInput.moved := by
    rintro pre i s' ⟨rest, heq⟩ hrun
    match pre, heq, hrun with
    | [], heq, hrun =>
      cases heq
      cases hrun
      exact ⟨by decide, fun o ho => absurd ho List.not_mem_nil, by decide⟩
    | [_], heq, hrun =>
      cases heq
      obtain ⟨s₁, hs₁, hreads⟩ := Run.exists_ok_of_map
        (x := Run.run (System.step 16) .fromGrow (SystemInput.moved.take 1))
        (f := fun s => s.trainer.reads) (b := false) (by decide +kernel)
      cases hs₁.symm.trans hrun
      exact fun hr => Bool.noConfusion (hreads.symm.trans hr)
    | [_, _], heq, hrun =>
      cases heq
      exact fun _ => moved_fits hrun
    | [_, _, _], heq, hrun =>
      cases heq
      obtain ⟨s₃, hs₃, hheap⟩ := Run.exists_ok_of_map
        (x := Run.run (System.step 16) .fromGrow (SystemInput.moved.take 3))
        (f := fun s => (s.game.without 0x20).length) (b := 0) (by decide +kernel)
      cases hs₃.symm.trans hrun
      show Game.NewAddr (s'.game.without 0x20) 0x60
      rw [List.length_eq_zero_iff.mp hheap]
      exact ⟨by decide, fun o ho => absurd ho List.not_mem_nil, by decide⟩
    | _ :: _ :: _ :: _ :: pre, heq, _ => simp [SystemInput.moved] at heq
  obtain hstop | ⟨htracked, todo, htodo, htell, -⟩ :=
    run_follows (t := .start (.single (.fromGrow [])) [0]) MQueue.empty_fresh (by
      unfold CfgMem.NoObjs
      decide) (List.forall₂_same.mpr fun c _ => .refl c) (by decide)
      (fun _ => by unfold Accepted; decide) (by decide) hproper hs
  · exact absurd hstop hrunning
  · refine ⟨s, hs, hlive, hheap, htracked, todo, htodo, ?_⟩
    rw [← hlive, ← hheap]
    exact htell

end Start

end UgTrain
