import UgTrain.ValOutput
import UgTrain.Reloc
import UgTrain.LatePic
import UgTrain.ObjTrack

/-!
# The main loop (`ugtrain.cpp`)

`Trainer.step` goes through one phase of the main loop; a run is one phase after the other. An
iteration ends early, without new objects and output, if no entry is activated or if the game
cannot be attached or detached.

* `LoopInput` is what comes from outside in one phase: a key, the messages in the FIFO, whether the
  game still runs and can be attached or detached, its memory while it is frozen, its regions.
* A message is what the parser gives to the callbacks. libmemhack does not report a `free(NULL)`.
* A stack end that does not match ends the program.
-/

namespace UgTrain

open CLib

/-- A message in the FIFO. -/
inductive FifoMsg where
  | malloc (m : AllocMsg) (behind : Str) (ppos : Nat)
  | free (memAddr : Ptr) (h : memAddr ≠ 0)
  | lib (libName : Str) (rlist : List Region)
  | stackEnd (addr : Ptr)

structure LoopInput where
  key : Option Nat
  msgs : List FifoMsg
  /-- The game has not ended. -/
  running : Bool
  /-- Attaching or detaching works. -/
  attached : Bool
  target : Target
  junk : Value
  heap : Ptr × Ptr
  rlist : List Region
  printed : Nat

namespace Trainer

def setCfg (s : Trainer) (cfg : CfgMem) : Trainer := { s with opt := { s.opt with toCfgMem := cfg } }

/-- The callbacks of `read_dynmem_fifo`. -/
def handleMsg (s : Trainer) : FifoMsg → Except Fault Trainer
  | .malloc m behind ppos => do
    let mq ← queueDynmemAddr (m.postParse behind ppos) s.mq
    return { s with mq := mq }
  | .free memAddr _ => do
    let (cfg, mq) ← clearDynmemAddr s.opt.toCfgMem s.mq memAddr
    return { s.setCfg cfg with mq := mq }
  | .lib libName rlist => return s.setCfg (getLibLoadAddr rlist libName s.opt.toCfgMem).1
  | .stackEnd addr =>
    -- `verify_stack_end`
    if s.opt.stackEnd = addr then return s
    else if s.opt.stackEnd = 0 then do
      let opt ← processStackEnd { s.opt with stackEnd := addr }
      return { s with opt := opt }
    else return { s with phase := .stopped }

/-- `read_dynmem_fifo`; nothing is read behind the end of the program. -/
def readFifo : List FifoMsg → Trainer → Except Fault Trainer
  | [], s => .ok s
  | msg :: msgs, s => do
    let s ← s.handleMsg msg
    if s.phase = .stopped then return s
    readFifo msgs s

/-- `output_dynmem_changes`. -/
def outputDynmemChanges (s : Trainer) : Trainer :=
  { s with opt := { s.opt with dynmems := s.opt.dynmems.map fun dm => { dm with numAlloc := 0 } } }

/-- `handle_heap_checks` for one check. -/
def heapCheck (heap : Ptr × Ptr) (chk : CheckEntry) : CheckEntry :=
  if chk.isHeapchk = false then chk
  else if chk.check[0]? = some .eq ∧ chk.check[1]? = some .gt then
    { chk with value := (chk.value.set 0 heap.1).set 1 heap.1 }
  else if chk.check[0]? = some .lt then { chk with value := chk.value.set 0 heap.2 }
  else chk

def handleHeapChecks (heap : Ptr × Ptr) (s : Trainer) : Trainer :=
  if s.heapChecks then
    { s with opt := { s.opt with
      entries := s.opt.entries.map fun en =>
        { en with checks := en.checks.map (·.map (heapCheck heap)) } } }
  else s

/-- Late PIC handling for static memory: once for each library that is not loaded. -/
def handleLatePic (rlist : List Region) (opt : Options) (l : Nat) : Except Fault Options :=
  match opt.libs[l]? with
  | none => .ok opt
  | some lit =>
    if lit.isLoaded then .ok opt
    else handleStatmemPic { opt with libs := findLibRegions rlist opt.libs } true

/-- `process_mallocs` and `alloc_dynmem`. -/
def newObjects (s : Trainer) : Except Fault Trainer := do
  let (mq, dynmems) ← processMallocs (allocMf s.opt.entries) .sc s.mq s.opt.dynmems
  let s := { s with mq := mq, opt := { s.opt with dynmems := dynmems } }.outputDynmemChanges
  return s.setCfg (allocDynmem s.opt.toCfgMem)

def next (s : Trainer) (phase : Phase) : Trainer := { s with phase := phase }

/-- The next iteration, unless the game has ended. -/
def nextIter (s : Trainer) (running : Bool) : Trainer :=
  s.next (if running then .input else .stopped)

/-- What follows once the FIFO is read, unless the program has ended. -/
def afterFifo (s : Trainer) (msgs : List FifoMsg) (f : Trainer → Trainer) :
    Except Fault Trainer :=
  if s.pureStatmem then .ok (f s)
  else do
    let s ← readFifo msgs s
    return if s.phase = .stopped then s else f s

variable (chunk : Nat)

def step (s : Trainer) (i : LoopInput) : Except Fault Trainer :=
  match s.phase with
  | .input => .ok ((i.key.elim s fun ch =>
      if 0 < ch ∧ ch < 128 then s.handleInputChar ch else s).next .fifo)
  | .fifo => s.afterFifo i.msgs fun s => s.outputDynmemChanges.next .free
  | .free =>
    -- no active config
    if s.cfgAct = [] then .ok (s.nextIter i.running)
    else if s.pureStatmem then .ok (s.next .attach)
    else .ok ((s.setCfg (freeDynmem s.opt.toCfgMem)).next .attach)
  | .attach => .ok (if i.attached then s.next .fifoAgain else s.nextIter i.running)
  | .fifoAgain => s.afterFifo i.msgs (·.next .process)
  | .process => do
    let p ← processActCfg chunk s.cfgAct ⟨s.opt, i.target, 0, i.junk, []⟩
    return { s with opt := p.opt, events := p.events, phase := .detach }
  | .detach => .ok (if i.attached then s.next .late else s.nextIter i.running)
  | .late => do
    let s := s.handleHeapChecks i.heap
    let opt ← (List.range s.opt.libs.length).foldlM (handleLatePic i.rlist) s.opt
    return { s with opt := opt, phase := .freeKicked }
  | .freeKicked =>
    if s.pureStatmem then .ok (s.next .output)
    else .ok ((s.outputDynmemChanges.setCfg (freeDynmem s.outputDynmemChanges.opt.toCfgMem)).next
      .output)
  | .output => do
    let s ← s.outputMemValues i.printed
    return s.next .mallocs
  | .mallocs =>
    if s.pureStatmem then .ok (s.next .input)
    else do
      let s ← s.newObjects
      return s.next .input
  | .stopped => .ok s

end Trainer

end UgTrain
