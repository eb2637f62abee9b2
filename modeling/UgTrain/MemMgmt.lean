import UgTrain.FifoParser

/-!
# Objects and the malloc queue (`memmgmt.cpp`, `process_mallocs`)

An allocation waits in the malloc queue until `processMallocs` hands it to `allocDynmemAddr`,
which puts its address behind those of its class. A free takes the allocation out of the queue, or
marks the object with the address 0; `freeDynmem` removes the marked objects later.

* The malloc queue is a byte buffer. `end_` is the number of bytes in use.
* `CfgMem` is the part of the config that these functions change. Entries, classes and pointer
  sections are referred to by their index.
* The output functions and the counts that only they use (`num_kicked`) are left out.
-/

namespace UgTrain

open CLib

/-! ## The malloc queue -/

/-- `struct mqueue`: `size` is the length of `data`. -/
structure MQueue where
  data : Str
  end_ : Nat
  deriving DecidableEq, Repr

def MQueue.size (mq : MQueue) : Nat := mq.data.length

/-- The size of the malloc queue: `4 * PIPE_BUF`. -/
def mqueueSize : Nat := 4 * pipeBuf

/-- Writes a message including its line break to the malloc queue. -/
def queueDynmemAddr (pp : PostParse) (mq : MQueue) : Except Fault MQueue := do
  let n := mq.size - mq.end_
  -- the message end is set to `nul` for the time of the call
  let msg := cstr (pp.ibuf.take (pp.msgEnd + 1))
  let data ← snprintf mq.data mq.end_ n msg
  let np := msg.length
  if n ≤ np then
    let data ← store data (mq.end_ + 1) [nul]
    return ⟨data, mq.end_⟩
  else
    return ⟨data, mq.end_ + np⟩

/-- The loop of `remove_malloc_from_queue`; `pstart` is behind the `m` of a message. A negative
length, also a negative `end`, is a fault. -/
def removeMallocLoop (mq : MQueue) (freeAddr : Ptr) (pstart : Nat) :
    Except Fault (Bool × MQueue) :=
  match strchr (mq.data.drop pstart) '\n' with
  | none => .ok (false, mq)
  | some i =>
    let msgEnd := pstart + i + 1
    match scanPtr (mq.data.drop pstart) with
    | none => .ok (false, mq)
    | some (mallocAddr, _) =>
      if mallocAddr = freeAddr then do
        let mstart := pstart - 1
        if mq.end_ + 1 < msgEnd then throw .negativeLength
        let len := mq.end_ + 1 - msgEnd
        if mq.end_ ≤ len then return (false, mq)
        let data ← memmove mq.data mstart msgEnd len
        if mq.end_ < msgEnd - mstart then throw .negativeLength
        return (true, ⟨data, mq.end_ - (msgEnd - mstart)⟩)
      else if mq.end_ ≤ msgEnd + 1 then
        .ok (false, mq)
      else
        removeMallocLoop mq freeAddr (msgEnd + 1)
  termination_by mq.end_ - pstart

/-- `remove_malloc_from_queue`: whether the allocation was in the queue. -/
def removeMallocFromQueue (mq : MQueue) (freeAddr : Ptr) : Except Fault (Bool × MQueue) :=
  if mq.end_ = 0 then .ok (false, mq) else removeMallocLoop mq freeAddr 1

/-- `process_mallocs`: parses the queue and empties it. The callback `mf` is `allocDynmemAddr`. -/
def processMallocs {σ : Type}
    (mf : PostParse → Ptr → SizeT → Ptr → Ptr → Ptr → σ → Except Fault σ) (pmask : PMask)
    (mq : MQueue) (a : σ) : Except Fault (MQueue × σ) := do
  let res ← parseDynmemBuf ⟨some mf, none, none, none⟩ mq.data 0 mq.end_ pmask 0 a
  let data ← memset res.ibuf 0 mq.size
  return (⟨data, 0⟩, res.acc)

/-! ## Objects -/

/-- The entries, the classes and the pointer sections of the config. -/
structure CfgMem where
  entries : List CfgEntry
  dynmems : List DynMemEntry
  ptrmems : List PtrMemEntry
  deriving DecidableEq, Repr

def findAddrIdx (vec : List Ptr) (addr : Ptr) : Option Nat := vec.findIdx? (· = addr)

/-- The first class along the entries of the config for which `p` holds. -/
def findDynmem (dynmems : List DynMemEntry) (p : DynMemEntry → Bool) :
    List CfgEntry → Option (Nat × DynMemEntry)
  | [] => none
  | it :: cfg =>
    match it.dynmem.bind fun d => (dynmems[d]?).map (d, ·) with
    | none => findDynmem dynmems p cfg
    | some (d, dynmem) => if p dynmem then some (d, dynmem) else findDynmem dynmems p cfg

/-- Whether `alloc_dynmem_addr` takes the class for an allocation from `codeAddr`. -/
def DynMemEntry.accepts (dynmem : DynMemEntry) (codeAddr : Ptr) : Bool :=
  match dynmem.grow with
  | some grow => dynmem.codeAddr = codeAddr || grow.codeAddr = codeAddr
  | none => dynmem.codeAddr = codeAddr || dynmem.consts.any (·.codeAddr = codeAddr)

def DynMemEntry.pushObj (dynmem : DynMemEntry) (memAddr : Ptr) (memSize : SizeT) : DynMemEntry :=
  { dynmem with
    vMaddr := dynmem.vMaddr ++ [memAddr]
    vMsize := dynmem.vMsize ++ [memSize]
    numAlloc := dynmem.numAlloc + 1 }

/-- Marks the object `idx` as freed. -/
def DynMemEntry.clearObj (dynmem : DynMemEntry) (idx : Nat) : DynMemEntry :=
  { dynmem with
    vMaddr := dynmem.vMaddr.set idx 0
    vMsize := dynmem.vMsize.set idx 0
    numFreed := dynmem.numFreed + 1 }

/-- Marks the object `idx` as kicked, as an object check does. -/
def DynMemEntry.kickObj (dynmem : DynMemEntry) (idx : Nat) : DynMemEntry :=
  { dynmem with vMaddr := dynmem.vMaddr.set idx 0 }

/-- Finds the class and appends the object. -/
def allocDynmemAddr (cfg : List CfgEntry) (memAddr : Ptr) (memSize : SizeT) (codeAddr : Ptr)
    (dynmems : List DynMemEntry) : List DynMemEntry :=
  match findDynmem dynmems (·.accepts codeAddr) cfg with
  | some (d, dynmem) => dynmems.set d (dynmem.pushObj memAddr memSize)
  | none => dynmems

/-- The class loop of `clear_dynmem_addr`. -/
def clearObjs (cfg : List CfgEntry) (memAddr : Ptr) (dynmems : List DynMemEntry) :
    List DynMemEntry :=
  match findDynmem dynmems (fun dynmem => (findAddrIdx dynmem.vMaddr memAddr).isSome) cfg with
  | some (d, dynmem) =>
    match findAddrIdx dynmem.vMaddr memAddr with
    | some idx => dynmems.set d (dynmem.clearObj idx)
    | none => dynmems
  | none => dynmems

/-- Takes the allocation out of the queue, or marks the object as freed. -/
def clearDynmemAddr (cfg : CfgMem) (mq : MQueue) (memAddr : Ptr) :
    Except Fault (CfgMem × MQueue) := do
  let (removed, mq) ← removeMallocFromQueue mq memAddr
  if removed then
    return (cfg, mq)
  else
    return ({ cfg with dynmems := clearObjs cfg.entries memAddr cfg.dynmems }, mq)

/-! ## Values of objects -/

/-- Room for the value of one more object; text gets a buffer. -/
def CfgEntry.pushVal (en : CfgEntry) : CfgEntry :=
  let cstr := if en.type.isCstrp || en.type.isCstr then
    some (List.replicate (maxCstr + 1) 0) else none
  { en with vals := { en.vals with
    vOldval := en.vals.vOldval ++ [0]
    vValue := en.vals.vValue ++ [en.vals.value]
    vCstr := en.vals.vCstr ++ [cstr] } }

/-- Removes the value of the object `idx`. An `erase` behind the end of a vector changes
nothing. -/
def CfgEntry.eraseVal (en : CfgEntry) (idx : Nat) : CfgEntry :=
  { en with vals := { en.vals with
    vOldval := en.vals.vOldval.eraseIdx idx
    vValue := en.vals.vValue.eraseIdx idx
    vCstr := en.vals.vCstr.eraseIdx idx } }

def PtrMemEntry.pushState (p : PtrMemEntry) : PtrMemEntry :=
  { p with vState := p.vState ++ [.init], vOffs := p.vOffs ++ [0] }

def PtrMemEntry.eraseState (p : PtrMemEntry) (idx : Nat) : PtrMemEntry :=
  { p with vState := p.vState.eraseIdx idx, vOffs := p.vOffs.eraseIdx idx }

/-- A change of a pointer section and of the entries in it. -/
def CfgMem.modifyPtrmem (cfg : CfgMem) (ptrtgt : Option Nat) (f : PtrMemEntry → PtrMemEntry)
    (g : CfgEntry → CfgEntry) : CfgMem :=
  match ptrtgt.bind fun p => (cfg.ptrmems[p]?).map (p, ·) with
  | none => cfg
  | some (p, ptrmem) =>
    { cfg with
      ptrmems := cfg.ptrmems.set p (f ptrmem)
      entries := ptrmem.cfg.foldl (fun es e => es.modify e g) cfg.entries }

/-- `alloc_ptrmem`. -/
def allocPtrmem (cfg : CfgMem) (ptrtgt : Option Nat) : CfgMem :=
  cfg.modifyPtrmem ptrtgt PtrMemEntry.pushState CfgEntry.pushVal

/-- `free_ptrmem`. -/
def freePtrmem (cfg : CfgMem) (ptrtgt : Option Nat) (idx : Nat) : CfgMem :=
  cfg.modifyPtrmem ptrtgt (·.eraseState idx) (·.eraseVal idx)

/-- The objects of an entry, if it belongs to a class. -/
def CfgMem.objs (cfg : CfgMem) (en : CfgEntry) : Option (List Ptr) :=
  (en.dynmem.bind (cfg.dynmems[·]?)).map (·.vMaddr)

/-- The object loop of `alloc_dynmem` for the entry `e`, from the object `memIdx` on. -/
def allocVals (e : Nat) (cfg : CfgMem) (memIdx : Nat) : Nat → CfgMem
  | 0 => cfg
  | n + 1 =>
    match cfg.entries[e]? with
    | none => cfg
    | some en =>
      let cfg := if en.vals.vOldval.length ≤ memIdx then
          allocPtrmem { cfg with entries := cfg.entries.modify e CfgEntry.pushVal } en.ptrtgt
        else cfg
      allocVals e cfg (memIdx + 1) n

/-- One round of `alloc_dynmem`: the entry `e`. -/
def allocEntry (cfg : CfgMem) (e : Nat) : CfgMem :=
  match cfg.entries[e]?.bind cfg.objs with
  | none => cfg
  | some mvec => allocVals e cfg 0 mvec.length

def allocDynmem (cfg : CfgMem) : CfgMem :=
  (List.range cfg.entries.length).foldl allocEntry cfg

/-- The first object loop of `free_dynmem` for the entry `e`: removes the values of the marked
objects. `ovIdx` is the position of the value of the next object. -/
def freeVals (e : Nat) (cfg : CfgMem) (ovIdx : Nat) : List Ptr → CfgMem
  | [] => cfg
  | m :: mvec =>
    match cfg.entries[e]? with
    | none => cfg
    | some en =>
      if ovIdx < en.vals.vOldval.length then
        if m = 0 then
          freeVals e (freePtrmem { cfg with entries := cfg.entries.modify e (·.eraseVal ovIdx) }
            en.ptrtgt ovIdx) ovIdx mvec
        else freeVals e cfg (ovIdx + 1) mvec
      else cfg

/-- One round of the first entry loop of `free_dynmem`. -/
def freeEntry (cfg : CfgMem) (e : Nat) : CfgMem :=
  match cfg.entries[e]?.bind cfg.objs with
  | none => cfg
  | some mvec => freeVals e cfg 0 mvec

/-- The second object loop of `free_dynmem`: removes the marked objects from `memIdx` on. -/
def eraseObjs (mvec : List Ptr) (svec : List SizeT) (memIdx : Nat) : List Ptr × List SizeT :=
  if h : memIdx < mvec.length then
    if mvec[memIdx] = 0 then eraseObjs (mvec.eraseIdx memIdx) (svec.eraseIdx memIdx) memIdx
    else eraseObjs mvec svec (memIdx + 1)
  else (mvec, svec)
  termination_by mvec.length - memIdx
  decreasing_by
    · rw [List.length_eraseIdx_of_lt h]; omega
    · omega

def DynMemEntry.eraseObjs (dynmem : DynMemEntry) : DynMemEntry :=
  let (mvec, svec) := UgTrain.eraseObjs dynmem.vMaddr dynmem.vMsize 0
  { dynmem with vMaddr := mvec, vMsize := svec, numFreed := 0 }

/-- The second entry loop of `free_dynmem`: each class once where its entries stand together. -/
def freeObjs (dynmems : List DynMemEntry) (old : Option Nat) : List CfgEntry → List DynMemEntry
  | [] => dynmems
  | en :: cfg =>
    if en.dynmem = none ∨ en.dynmem = old then freeObjs dynmems old cfg
    else freeObjs (en.dynmem.elim dynmems fun d => dynmems.modify d DynMemEntry.eraseObjs)
      en.dynmem cfg

def freeDynmem (cfg : CfgMem) : CfgMem :=
  let cfg := (List.range cfg.entries.length).foldl freeEntry cfg
  { cfg with dynmems := freeObjs cfg.dynmems none cfg.entries }

end UgTrain
