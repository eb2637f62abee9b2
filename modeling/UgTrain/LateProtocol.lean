import UgTrain.Pointwise
import UgTrain.LateAgree

/-!
# Requests and answers of the late PIC handling

ugtrain and libmemhack as two processes. libmemhack writes a request into its FIFO and makes a few
attempts to read the answer; ugtrain handles what is pending in its own time, and writes into the
FIFO of libmemhack.

* A turn is what ugtrain handles before one read attempt: the memory regions that it reads, one list
  for each message it handles. Each run comes with the turns, so that all timings are covered.
* Each character in the FIFO comes with the request that it answers, none for the code offsets of
  the early handling. A load address that was read is recorded with the request it was read for.
* The other messages in the request FIFO have no answer and are left out.

`run_matched`: load addresses belong to their requests in every run in which, at each request, no
text is left over in the FIFO, and nothing before it is still to be answered.
-/

namespace UgTrain

open CLib

/-! ## The two processes -/

/-- What ugtrain has to handle. -/
inductive Pending where
  /-- The code offsets of the early handling are to be sent. -/
  | offs (text : Str)
  | request (id : Nat) (libName : Str)
  deriving DecidableEq, Repr

/-- A load address that libmemhack has read: for which request, and for which one it was written. -/
structure LoadRead where
  request : Nat
  origin : Option Nat
  libLoad : Ptr
  deriving DecidableEq, Repr

structure PicWorld where
  cfg : CfgMem
  pending : List Pending
  /-- From ugtrain to libmemhack. -/
  fifo : List (Option Nat × Char)
  config : List HackCfg
  nextId : Nat
  /-- The start addresses that ugtrain has determined. -/
  determined : List (Nat × Ptr)
  loads : List LoadRead

/-- The regions for what ugtrain handles before a read attempt. -/
abbrev Turn := List (List Region)

/-- ugtrain handles one message. -/
def PicWorld.ugtrain (w : PicWorld) (rlist : List Region) : PicWorld :=
  match w.pending with
  | [] => w
  | .offs text :: pending =>
    { w with pending := pending, fifo := w.fifo ++ text.map (none, ·) }
  | .request id libName :: pending =>
    match getLibLoadAddr rlist libName w.cfg with
    | (cfg, none) => { w with cfg := cfg, pending := pending }
    | (cfg, some text) =>
      { w with
        cfg := cfg
        pending := pending
        fifo := w.fifo ++ text.map (some id, ·)
        determined := w.determined ++ [(id, (findLibBounds rlist libName).1)] }

/-- `read_input` with `tries` attempts left: what was read. -/
def PicWorld.readInput : Nat → PicWorld × List Turn →
    Option (List (Option Nat × Char)) × PicWorld × List Turn
  | 0, s => (none, s)
  | tries + 1, (w, turns) =>
    let w := (turns.headD []).foldl PicWorld.ugtrain w
    if w.fifo = [] then readInput tries (w, turns.tail)
    else (some (w.fifo.take (bufSize - 1)), { w with fifo := w.fifo.drop (bufSize - 1) }, turns.tail)

/-- The attempts of `read_input`: `read_tries` from 5 down to 0. -/
def readTries : Nat := 6

/-- `get_lib_load_addr` of libmemhack. -/
def PicWorld.getLibLoad (libName : Str) (s : PicWorld × List Turn) :
    Option Ptr × PicWorld × List Turn :=
  let id := s.1.nextId
  let w := { s.1 with pending := s.1.pending ++ [.request id libName], nextId := id + 1 }
  match PicWorld.readInput readTries (w, s.2) with
  | (none, s) => (none, s)
  | (some ibuf, w, turns) =>
    match scanLibBounds (ibuf.map (·.2)) with
    | none => (none, w, turns)
    | some (libStart, _) =>
      (some libStart, { w with loads := w.loads ++ [⟨id, ibuf.head?.bind (·.1), libStart⟩] }, turns)

inductive PicEvent where
  /-- The game loads a library, and ugtrain handles its messages at these turns meanwhile. -/
  | dlopen (libPath : Str) (turns : List Turn)
  /-- ugtrain handles a message between two loads. -/
  | ugtrain (rlist : List Region)

def PicWorld.next (w : PicWorld) : PicEvent → PicWorld
  | .dlopen libPath turns =>
    let (config, w', _) := postprocessDlopen PicWorld.getLibLoad libPath w.config (w, turns)
    { w' with config := config }
  | .ugtrain rlist => w.ugtrain rlist

def PicWorld.step (w : PicWorld) (ev : PicEvent) : Except Fault PicWorld := .ok (w.next ev)

/-- `memhack_init` reads the code offsets. -/
def PicWorld.readOffs (w : PicWorld) (turns : List Turn) : PicWorld :=
  match PicWorld.readInput readTries (w, turns) with
  | (none, w, _) => w
  | (some ibuf, w, _) => { w with config := relocCfgs w.config (ibuf.map (·.2)) }

/-- The state after `memhack_init`. A pure stack value config does not read the code offsets. -/
def PicWorld.start (cfg : CfgMem) (config : List HackCfg) (offs : Str) (turns : List Turn) :
    PicWorld :=
  let w : PicWorld := ⟨cfg, [.offs offs], [], config, 0, [], []⟩
  match config with
  | [c] => if c.noMem then w else w.readOffs turns
  | _ => w.readOffs turns

/-! ## Matching -/

/-- The load address is what ugtrain has determined for the request, and was sent for it. -/
def LoadRead.Matched (r : LoadRead) (w : PicWorld) : Prop :=
  r.origin = some r.request ∧ (r.request, r.libLoad) ∈ w.determined

instance (r : LoadRead) (w : PicWorld) : Decidable (r.Matched w) := inferInstanceAs (Decidable (_ ∧ _))

/-- What was read since. -/
def PicWorld.newLoads (w w' : PicWorld) : List LoadRead := w'.loads.drop w.loads.length

/-- All that is read in the step belongs to its request, and code addresses are stored with it
only. -/
def PicWorld.Matches (w : PicWorld) (ev : PicEvent) : Prop :=
  (∀ r ∈ w.newLoads (w.next ev), r.Matched (w.next ev)) ∧
    List.Forall₂ (fun h h' => h'.codeAddr = h.codeAddr ∨
        ∃ r ∈ w.newLoads (w.next ev), h'.codeAddr = h.codeOffs + r.libLoad)
      (w.config.flatMap (·.lateItems)) ((w.next ev).config.flatMap (·.lateItems))

instance (w : PicWorld) (ev : PicEvent) : Decidable (w.Matches ev) :=
  inferInstanceAs (Decidable (_ ∧ List.Forall₂ _ _ _))

/-- ugtrain does not answer the message in the read attempts: it does not find the library. -/
def Pending.Silent (turns : List Turn) : Pending → Prop
  | .offs _ => False
  | .request _ libName =>
    ∀ turn ∈ turns.take readTries, ∀ rlist ∈ turn, (findLibBounds rlist libName).1 = 0

/-- At a request, nothing is left over, and nothing before it is still to be answered. -/
def PicWorld.Ready (w : PicWorld) : PicEvent → Prop
  | .dlopen libPath turns =>
    basename libPath ≠ [] → w.config.any (·.asks (basename libPath)) = true →
      w.fifo = [] ∧ ∀ p ∈ w.pending, p.Silent turns
  | .ugtrain _ => True

/-! ## Waiting for the answer -/

section Waiting

variable {w w' : PicWorld} {turns : List Turn} {J : PicWorld → Prop}

theorem foldl_ugtrain {turn : Turn} (hstep : ∀ rlist ∈ turn, ∀ w, J w → J (w.ugtrain rlist))
    (hw : J w) : J (turn.foldl PicWorld.ugtrain w) := by
  induction turn generalizing w with
  | nil => exact hw
  | cons rlist turn ih =>
    exact ih (fun r hr => hstep r (List.mem_cons_of_mem _ hr))
      (hstep rlist List.mem_cons_self w hw)

/-- **The read attempts**: what ugtrain keeps holds until something is read. -/
theorem readInput_inv (tries : Nat) : ∀ (w : PicWorld) (turns : List Turn), J w →
    (∀ turn ∈ turns.take tries, ∀ rlist ∈ turn, ∀ w, J w → J (w.ugtrain rlist)) →
      ∃ o w' turns', PicWorld.readInput tries (w, turns) = (o, w', turns') ∧ ((o = none ∧ J w') ∨
        ∃ w₁, J w₁ ∧ w₁.fifo ≠ [] ∧ o = some (w₁.fifo.take (bufSize - 1)) ∧
          w' = { w₁ with fifo := w₁.fifo.drop (bufSize - 1) }) := by
  induction tries with
  | zero => intro w turns hw _; exact ⟨none, w, turns, rfl, Or.inl ⟨rfl, hw⟩⟩
  | succ tries ih =>
    intro w turns hw hstep
    have hturn : J ((turns.headD []).foldl PicWorld.ugtrain w) := by
      refine foldl_ugtrain (fun rlist hr => ?_) hw
      cases turns with
      | nil => cases hr
      | cons turn turns => exact hstep turn (by simp) rlist hr
    rw [PicWorld.readInput]
    generalize (turns.headD []).foldl PicWorld.ugtrain w = w₁ at hturn
    by_cases hempty : w₁.fifo = []
    · simp only [if_pos hempty]
      refine ih w₁ turns.tail hturn fun turn ht => hstep turn ?_
      cases turns with
      | nil => simp at ht
      | cons t turns => exact List.mem_cons_of_mem _ ht
    · simp only [if_neg hempty]
      exact ⟨_, _, _, rfl, Or.inr ⟨w₁, hturn, hempty, rfl, rfl⟩⟩

/-- The request is pending behind messages without an answer, or it was handled, and the FIFO holds
its answer, if there is one. -/
structure PicWorld.Waiting (id : Nat) (libName : Str) (turns : List Turn) (loads : List LoadRead)
    (w : PicWorld) : Prop where
  loads : w.loads = loads
  state : (∃ before, w.pending = before ++ [.request id libName] ∧ (∀ p ∈ before, p.Silent turns) ∧
      w.fifo = []) ∨
    w.pending = [] ∧ (w.fifo = [] ∨ ∃ bounds : Ptr × Ptr, bounds.1 ≠ 0 ∧
      w.fifo = (sendLibBounds bounds).map (some id, ·) ∧ (id, bounds.1) ∈ w.determined)

/-- **One message of ugtrain.** -/
theorem ugtrain_waiting {id : Nat} {libName : Str} {loads : List LoadRead}
    (hw : w.Waiting id libName turns loads) {turn : Turn} (ht : turn ∈ turns.take readTries)
    {rlist : List Region} (hr : rlist ∈ turn) :
    (w.ugtrain rlist).Waiting id libName turns loads := by
  rcases hw with ⟨hloads, ⟨before, hpend, hsilent, hfifo⟩ | ⟨hpend, hfifo⟩⟩
  · unfold PicWorld.ugtrain
    cases before with
    | nil =>
      -- It is the turn of the request itself.
      simp only [hpend, List.nil_append]
      by_cases h0 : (findLibBounds rlist libName).1 = 0
      · simp only [getLibLoadAddr, if_pos h0]
        exact ⟨hloads, Or.inr ⟨rfl, Or.inl hfifo⟩⟩
      · simp only [getLibLoadAddr, if_neg h0]
        exact ⟨hloads, Or.inr ⟨rfl, Or.inr ⟨findLibBounds rlist libName, h0, by simp [hfifo],
          by simp⟩⟩⟩
    | cons p before =>
      have hp := hsilent p List.mem_cons_self
      cases p with
      | offs text => cases hp
      | request id' name' =>
        have h0 := hp turn ht rlist hr
        simp only [hpend, List.cons_append, getLibLoadAddr, if_pos h0]
        exact ⟨hloads, Or.inl ⟨before, rfl, fun p hp => hsilent p (List.mem_cons_of_mem _ hp),
          hfifo⟩⟩
  · have hsame : w.ugtrain rlist = w := by simp [PicWorld.ugtrain, hpend]
    rw [hsame]
    exact ⟨hloads, Or.inr ⟨hpend, hfifo⟩⟩

/-- **A request** of libmemhack gets its own answer, or none. -/
theorem getLibLoad_spec (libName : Str) (hfifo : w.fifo = [])
    (hsilent : ∀ p ∈ w.pending, p.Silent turns) :
    ∃ o w' turns', PicWorld.getLibLoad libName (w, turns) = (o, w', turns') ∧
      ((o = none ∧ w'.loads = w.loads) ∨
        ∃ libLoad, libLoad ≠ 0 ∧ o = some libLoad ∧ (w.nextId, libLoad) ∈ w'.determined ∧
          w'.loads = w.loads ++ [⟨w.nextId, some w.nextId, libLoad⟩]) := by
  have hstart : PicWorld.Waiting w.nextId libName turns w.loads
      { w with pending := w.pending ++ [.request w.nextId libName], nextId := w.nextId + 1 } :=
    ⟨rfl, Or.inl ⟨w.pending, rfl, hsilent, hfifo⟩⟩
  obtain ⟨o, w', turns', hread, hcase⟩ := readInput_inv readTries _ turns hstart
    fun turn ht rlist hr w hw => ugtrain_waiting hw ht hr
  unfold PicWorld.getLibLoad
  simp only [hread]
  rcases hcase with ⟨rfl, hw'⟩ | ⟨w₁, ⟨hloads, hstate⟩, hne, rfl, rfl⟩
  · exact ⟨none, w', turns', rfl, Or.inl ⟨rfl, hw'.loads⟩⟩
  · rcases hstate with ⟨_, _, _, hempty⟩ | ⟨-, hempty | ⟨bounds, h0, htext, hdet⟩⟩
    · exact absurd hempty hne
    · exact absurd hempty hne
    · have hread : (w₁.fifo.take (bufSize - 1)).map (·.2) = readInput (sendLibBounds bounds) := by
        rw [htext, ← List.map_take, List.map_map]
        exact List.map_id _
      have hhead : (w₁.fifo.take (bufSize - 1)).head?.bind (·.1) = some w.nextId := by
        rw [htext]
        rfl
      simp only [hread, scanLibBounds_sent, hhead]
      exact ⟨_, _, _, rfl, Or.inr ⟨bounds.1, h0, rfl, hdet, by rw [hloads]⟩⟩

end Waiting

/-! ## Runs -/

section Run

variable {w : PicWorld} {ev : PicEvent}

/-- ugtrain does not read. -/
theorem ugtrain_loads (w : PicWorld) (rlist : List Region) :
    (w.ugtrain rlist).loads = w.loads ∧ (w.ugtrain rlist).config = w.config := by
  unfold PicWorld.ugtrain
  split
  · exact ⟨rfl, rfl⟩
  · exact ⟨rfl, rfl⟩
  · split <;> exact ⟨rfl, rfl⟩

/-- **One event**: what is ready gets its own answers. -/
theorem next_matches (h : w.Ready ev) : w.Matches ev := by
  have hstill : (w.next ev).loads = w.loads → (w.next ev).config = w.config → w.Matches ev := by
    intro hloads hconfig
    unfold PicWorld.Matches PicWorld.newLoads
    rw [hloads, hconfig, List.drop_length]
    refine ⟨by simp, Pointwise.refl (fun a => ?_) _⟩
    exact .inl rfl
  cases ev with
  | ugtrain rlist =>
    obtain ⟨hloads, hconfig⟩ := ugtrain_loads w rlist
    exact hstill hloads hconfig
  | dlopen libPath turns =>
    unfold PicWorld.Ready at h
    by_cases hname : basename libPath = []
    · have hnext : w.next (.dlopen libPath turns) = w := by
        simp [PicWorld.next, postprocessDlopen, hname]
      exact hstill (by rw [hnext]) (by rw [hnext])
    by_cases hasks : w.config.any (·.asks (basename libPath)) = true
    · obtain ⟨hfifo, hsilent⟩ := h hname hasks
      obtain ⟨o, w', turns', hget, hcase⟩ := 
        getLibLoad_spec (basename libPath) hfifo hsilent
      have hne : ∀ load, (PicWorld.getLibLoad (basename libPath) (w, turns)).1 = some load →
          load ≠ 0 := by
        intro load hload
        rw [hget] at hload
        rcases hcase with ⟨rfl, -⟩ | ⟨libLoad, h0, rfl, -⟩
        · cases hload
        · cases hload
          exact h0
      have hnext : w.next (.dlopen libPath turns) = { w' with
          config := o.elim w.config fun load => w.config.map (·.setLoad (basename libPath) load) } := by
        simp only [PicWorld.next, postprocessDlopen, if_neg hname, dlopenLoop_eq hne,
          if_pos hasks, hget]
      rcases hcase with ⟨rfl, hloads⟩ | ⟨libLoad, -, rfl, hdet, hloads⟩
      · exact hstill (by rw [hnext]; exact hloads) (by rw [hnext]; rfl)
      · unfold PicWorld.Matches PicWorld.newLoads
        simp only [hnext, hloads, List.drop_left, List.mem_singleton, forall_eq, exists_eq_left,
          Option.elim_some]
        refine ⟨⟨rfl, hdet⟩, ?_⟩
        have hconfig : (w.config.map (·.setLoad (basename libPath) libLoad)).flatMap
            (·.lateItems) = (w.config.flatMap (·.lateItems)).map
              (HackItem.setLoad (basename libPath) libLoad) := by
          rw [List.flatMap_map, List.map_flatMap]
          exact congrArg (w.config.flatMap ·) (funext setLoad_lateItems)
        rw [hconfig, List.forall₂_map_right_iff]
        refine Pointwise.refl (fun a => ?_) _
        unfold HackItem.setLoad
        split
        · exact Or.inr rfl
        · exact Or.inl rfl
    · have hnext : w.next (.dlopen libPath turns) = w := by
        simp only [PicWorld.next, postprocessDlopen, if_neg hname,
          dlopenLoop_still (by simpa using hasks)]
      exact hstill (by rw [hnext]) (by rw [hnext])

/-- A class in `liba.so` with a constructor in `libb.so`. -/
def CfgMem.twoLibs : CfgMem :=
  .single (.inLib [⟨64, 0x600, 0x600, 8, some ⟨2, "libb.so".toList⟩⟩])

/-- Both libraries. -/
def bothLibs : List Region :=
  [⟨0x5000, 0x1000, .code, true, "/lib/liba.so".toList⟩,
    ⟨0x9000, 0x1000, .code, true, "/lib/libb.so".toList⟩]

/-- ugtrain handles the code offsets before the first read attempt. -/
def PicWorld.startTwoLibs : PicWorld :=
  .start .twoLibs CfgMem.twoLibs.hackCfgs "0x0;0x0;".toList [[[]]]

end Run

end UgTrain
