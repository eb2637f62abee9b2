import UgTrain.BuildCaches
import UgTrain.NumType

/-!
# Processing of the activated config entries (`ugtrain.cpp`)

`processActCfg` is one cycle: with the game frozen, every activated entry is read through the
caches, its wish value is determined and, if its checks pass, stored in the cache; the changed
caches are written back at the end, those of a class after each object and those of a pointer
section after each pointer.

* `Target` is the memory of the frozen game. A read or a write of a range succeeds or fails as a
  whole; what a failed read leaves in a cache is never looked at.
* A `value_t *`, `char *` argument is a slot: `some i` is the element `i` of the vectors of an entry,
  `none` its single fields.
* `ProcState.buf` is the value that is passed on from entry to entry, `junk` what a local variable
  has before it is set. `events` is what the theorems look at; no function reads it.
* An index behind the end of a vector, a null pointer and a copy out of a buffer are faults.
-/

namespace UgTrain

open CLib

/-! ## The game -/

structure Target where
  mem : Ptr → UInt8
  readOk : Ptr → Nat → Bool
  writeOk : Ptr → Nat → Bool

def Target.memread (t : Target) (addr : Ptr) (len : Nat) : Option (List UInt8) :=
  if addr = 0 ∨ t.readOk addr len = false then none
  else some ((List.range len).map fun i => t.mem (addr + BitVec.ofNat 64 i))

def Target.memwrite (t : Target) (addr : Ptr) (data : List UInt8) : Target :=
  if addr = 0 ∨ t.writeOk addr data.length = false then t
  else { t with mem := fun a => data.getD (a - addr).toNat (t.mem a) }

/-! ## Slots -/

def EntryVals.old? (v : EntryVals) : Option Nat → Option Value
  | none => some v.oldVal
  | some i => v.vOldval[i]?

def EntryVals.wish? (v : EntryVals) : Option Nat → Option Value
  | none => some v.value
  | some i => v.vValue[i]?

/-- The text buffer; `none` behind the end of the vector, `some none` is `NULL`. -/
def EntryVals.cstr? (v : EntryVals) : Option Nat → Option (Option (List UInt8))
  | none => some v.cstr
  | some i => v.vCstr[i]?

def EntryVals.setOld (slot : Option Nat) (x : Value) (v : EntryVals) : EntryVals :=
  match slot with
  | none => { v with oldVal := x }
  | some i => { v with vOldval := v.vOldval.set i x }

def EntryVals.setWish (slot : Option Nat) (x : Value) (v : EntryVals) : EntryVals :=
  match slot with
  | none => { v with value := x }
  | some i => { v with vValue := v.vValue.set i x }

def EntryVals.setCstr (slot : Option Nat) (x : List UInt8) (v : EntryVals) : EntryVals :=
  match slot with
  | none => { v with cstr := some x }
  | some i => { v with vCstr := v.vCstr.set i (some x) }

def EntryVals.setFlag (b : Bool) (v : EntryVals) : EntryVals := { v with valSet := b }

/-- What happened: a value was read for a slot of an entry; a pointer was read for an object, with
the value from before; a pointer was followed; a value was stored in the cache. -/
inductive ProcEvent where
  | read (e : Nat) (slot : Option Nat) (buf : Value)
  | pointer (e memIdx : Nat) (buf value : Value)
  | follow (e memIdx : Nat) (buf : Value)
  | store (e : Nat) (slot : Option Nat) (value : Value)
  deriving DecidableEq, Repr

structure ProcState where
  opt : Options
  target : Target
  buf : Value
  junk : Value
  events : List ProcEvent

namespace ProcState

def emit (s : ProcState) (ev : ProcEvent) : ProcState := { s with events := s.events ++ [ev] }

def modifyVals (s : ProcState) (e : Nat) (f : EntryVals → EntryVals) : ProcState :=
  { s with opt := { s.opt with
    entries := s.opt.entries.modify e fun en => { en with vals := f en.vals } } }

def modifyDynmem (s : ProcState) (d : Nat) (f : DynMemEntry → DynMemEntry) : ProcState :=
  { s with opt := { s.opt with dynmems := s.opt.dynmems.modify d f } }

def modifyPtrmem (s : ProcState) (p : Nat) (f : PtrMemEntry → PtrMemEntry) : ProcState :=
  { s with opt := { s.opt with ptrmems := s.opt.ptrmems.modify p f } }

def modifyCache (s : ProcState) (r : CacheRef) (f : CacheEntry → CacheEntry) : ProcState :=
  { s with opt := { s.opt with caches := s.opt.caches.modify r f } }

def setBuf (s : ProcState) (buf : Value) : ProcState := { s with buf := buf }

/-- `INVALIDATE_CACHES`. -/
def invalidateCaches (mem : MemType) (s : ProcState) : ProcState :=
  { s with opt := { s.opt with
    caches := Function.update s.opt.caches mem
      ((s.opt.caches mem).map fun c => { c with start := ptrMax }) } }

/-- `WRITE_CACHES`. -/
def writeCaches (mem : MemType) (s : ProcState) : ProcState :=
  { s with
    target := ((s.opt.caches mem).filter (·.isDirty)).foldl
      (fun t c => t.memwrite c.start c.data) s.target
    opt := { s.opt with
      caches := Function.update s.opt.caches mem
        ((s.opt.caches mem).map fun c => { c with isDirty := false }) } }

end ProcState

/-- Whether a value on the stack or in a library is not available yet. -/
def VType.isLate (type : VType) (libs : List LibEntry) : Bool :=
  type.onStack || type.lib.any fun l => (libs[l]?).all (·.start = 0)

def Options.dynmem? (opt : Options) (d : Option Nat) : Option DynMemEntry :=
  d.bind (opt.dynmems[·]?)

/-! ## Checks -/

/-- The value of an object, if there is any. -/
def EntryVals.refVal (v : EntryVals) (objIdx : Nat) : Except Fault (Option Value) :=
  let vvec := if v.valSet then v.vValue else v.vOldval
  if vvec = [] then .ok none
  else
    match vvec[objIdx]? with
    | some value => .ok (some value)
    | none => .error .outOfBounds

/-- `handle_cfg_ref`: the value that the reference gives, or `none` if it is not available. -/
def handleCfgRef (opt : Options) (cfgRef : Nat) : Except Fault (Option Value) := do
  match opt.entries[cfgRef]? with
  | none => throw .nullPointer
  | some en =>
    match opt.dynmem? en.dynmem with
    | some dynmem => en.vals.refVal dynmem.objIdx
    | none =>
      match en.ptrmem.bind (opt.ptrmems[·]?) with
      | some ptrmem =>
        match opt.dynmem? ptrmem.dynmem with
        | some dynmem =>
          if (if en.vals.valSet then en.vals.vValue else en.vals.vOldval) = [] then return none
          match ptrmem.vState[dynmem.objIdx]? with
          | none => throw .outOfBounds
          | some .init => return none
          | some _ => en.vals.refVal dynmem.objIdx
        | none => return staticRef en
      | none => return staticRef en
where
  staticRef (en : CfgEntry) : Option Value :=
    if en.type.isLate opt.libs then none
    else some (if en.vals.valSet then en.vals.value else en.vals.oldVal)

/-- `memcpy(buf, cache_data, size / 8)`. -/
def copyToBuf (type : VType) (data : List UInt8) (cacheData : Ptr) (buf : Value) :
    Except Fault Value :=
  let n := type.bytes
  if 8 < n ∨ data.length < cacheData.toNat + n then .error .outOfBounds
  else .ok (Value.store (8 * n) buf (Value.ofBytes ((data.drop cacheData.toNat).take n)))

section Process

variable (chunk : Nat)

/-- `FILL_CACHE_AND_BUF`: the new `buf`, or `none` if the target memory cannot be read. -/
def fillCacheAndBuf (type : VType) (cache : Option CacheRef) (cacheData memOffs : Ptr) (buf : Value)
    (s : ProcState) : Except Fault (Option Value × ProcState) := do
  if type.isCstr then return (some buf, s)
  match cache.bind fun r => (s.opt.caches.get? r).map (r, ·) with
  | none => throw .nullPointer
  | some (r, c) =>
    if c.start = ptrMax then
      match s.target.memread (memOffs + c.offs) chunk with
      | none => return (none, s)
      | some data =>
        let buf ← copyToBuf type data cacheData buf
        return (some buf, s.modifyCache r fun c => { c with start := memOffs + c.offs, data := data })
    else
      let buf ← copyToBuf type c.data cacheData buf
      return (some buf, s)

/-- `check_memory`. -/
def checkMemory (type : VType) (chkBuf value : Value) (check : Check) : Bool :=
  type.checkNum.any fun t => t.checkMemVal chkBuf value check

/-- `or_check_memory`: the alternatives up to `Check.fin`; the first one is always checked. -/
def orCheckMemory (type : VType) (chkBuf : Value) : List Check → List Value → Except Fault Bool
  | check :: checks, value :: values =>
    if checkMemory type chkBuf value check then .ok true
    else
      match checks with
      | [] => .error .outOfBounds
      | .fin :: _ => .ok false
      | _ => orCheckMemory type chkBuf checks values
  | _, _ => .error .outOfBounds

/-- The value to be checked: of the reference, the object number, or of the target memory; `none` if
it is not available. -/
def checkValue (dynmem : Option DynMemEntry) (memOffs : Ptr) (chk : CheckEntry) (chkBuf : Value)
    (s : ProcState) : Except Fault (Option Value × ProcState) := do
  match chk.cfgRef with
  | some cfgRef =>
    let buf ← handleCfgRef s.opt cfgRef
    return (buf, s)
  | none =>
    match chk.checkObjNum, dynmem with
    | true, some dynmem =>
      return (some (Value.store 32 chkBuf (BitVec.ofNat 64 dynmem.objIdx)), s)
    | _, _ => fillCacheAndBuf chunk chk.type chk.cache chk.cacheData memOffs chkBuf s

/-- `process_checks`: whether all checks pass. A failing object check kicks the object. -/
def processChecks (dynmem : Option Nat) (memOffs : Ptr) :
    List CheckEntry → Value → ProcState → Except Fault (Bool × ProcState)
  | [], _, s => .ok (true, s)
  | chk :: chks, chkBuf, s => do
    if chk.type.isLate s.opt.libs then return (false, s)
    -- the number of an object outside of a class is not checked
    if chk.cfgRef.isNone && chk.checkObjNum && (s.opt.dynmem? dynmem).isNone then
      processChecks dynmem memOffs chks chkBuf s
    else
      let (buf, s) ← checkValue chunk (s.opt.dynmem? dynmem) memOffs chk chkBuf s
      match buf with
      | none => return (false, s)
      | some chkBuf =>
        if ← orCheckMemory chk.type chkBuf chk.check chk.value then
          processChecks dynmem memOffs chks chkBuf s
        else
          match dynmem, s.opt.dynmem? dynmem with
          | some d, some dm =>
            if chk.isObjcheck then
              if dm.objIdx < dm.vMaddr.length then
                return (false, s.modifyDynmem d fun dm => dm.kickObj dm.objIdx)
              else throw .outOfBounds
            else return (false, s)
          | _, _ => return (false, s)

/-- The checks of an entry, if it has any. -/
def passChecks (en : CfgEntry) (memOffs : Ptr) (s : ProcState) : Except Fault (Bool × ProcState) :=
  match en.checks with
  | none => .ok (true, s)
  | some chks => processChecks chunk en.dynmem memOffs chks s.junk s

/-! ## Values -/

/-- Stores the wish value in the cache. -/
def storeVal (t : NumType) (e : Nat) (en : CfgEntry) (value : Value) (slot : Option Nat)
    (s : ProcState) : Except Fault ProcState :=
  match en.cache.bind fun r => (s.opt.caches.get? r).map (r, ·) with
  | none => .error .nullPointer
  | some (r, c) =>
    let n := t.width / 8
    let o := en.cacheData.toNat
    if c.data.length < o + n then .error .outOfBounds
    else
      let s := s.modifyCache r fun c => { c with
        data := c.data.take o ++ value.bytes n ++ c.data.drop (o + n)
        isDirty := true }
      .ok ((s.modifyVals e (·.setFlag true)).emit (.store e slot value))

/-- `change_mem_val`. -/
def changeMemVal (t : NumType) (e : Nat) (en : CfgEntry) (readVal value : Value) (memOffs : Ptr)
    (slot : Option Nat) (s : ProcState) : Except Fault ProcState := do
  if en.dynval = .watch then return s
  let (passed, s) ← passChecks chunk en memOffs s
  if passed = false then return s
  if t.checkMemVal readVal value en.check = false then return s
  -- invalid value from reference?
  if en.cfgRef.isSome && t.eq value 0 then return s
  storeVal t e en value slot s

/-- The text at `memAddr` goes to the buffer; a failed read leaves it as it is. -/
def readCstr (e : Nat) (slot : Option Nat) (memAddr : Ptr) (text : List UInt8) (s : ProcState) :
    ProcState :=
  match s.target.memread memAddr maxCstr with
  | none => s
  | some data => s.modifyVals e (·.setCstr slot (data ++ text.drop maxCstr))

/-- `handle_dynval`: the new wish value. -/
def handleDynval (t : NumType) (e : Nat) (en : CfgEntry) (readVal value : Value)
    (cstr : Option (List UInt8)) (memOffs : Ptr) (slot : Option Nat) (s : ProcState) :
    Except Fault (Value × ProcState) := do
  match en.dynval with
  | .max => return (if t.lt value readVal then t.store value readVal else value, s)
  | .min => return (if t.lt readVal value then t.store value readVal else value, s)
  | .addr =>
    match en.cfgRef with
    | some cfgRef =>
      match ← handleCfgRef s.opt cfgRef with
      | none => return (t.store value 0, s)
      | some buf => return (t.store value (t.add buf en.cfgRefAdd), s)
    | none =>
      match s.target.memread (memOffs + en.valAddr) 8 with
      | none => return (value, s)
      | some data => return (t.store value (Value.ofBytes data), s)
  | .watch =>
    match cstr with
    | none => return (value, s)
    | some text =>
      if en.type.isCstrp then
        if readVal = 0 then return (value, s)
        return (value, readCstr e slot readVal text s)
      else if en.type.isCstr then
        return (value, readCstr e slot (memOffs + en.addr) text s)
      else return (value, s)
  | _ => return (value, s)

/-- `change_memory`: the value that was read is in `buf`. -/
def changeMemory (e : Nat) (en : CfgEntry) (memOffs : Ptr) (slot : Option Nat) (s : ProcState) :
    Except Fault ProcState := do
  let s := (s.modifyVals e (·.setFlag false)).emit (.read e slot s.buf)
  match (s.opt.entries[e]?).bind (·.vals.old? slot), (s.opt.entries[e]?).bind (·.vals.wish? slot),
      (s.opt.entries[e]?).bind (·.vals.cstr? slot) with
  | some oldVal, some value, some cstr =>
    match en.type.num with
    | none => return s
    | some t =>
      let oldVal := t.store oldVal s.buf
      let s := s.modifyVals e (·.setOld slot oldVal)
      let (value, s) ← handleDynval t e en oldVal value cstr memOffs slot s
      let s := s.modifyVals e (·.setWish slot value)
      changeMemVal chunk t e en oldVal value memOffs slot s
  | _, _, _ => throw .outOfBounds

/-! ## Pointers -/

/-- An entry of the pointer section, read at the address that the pointer has. -/
def processTarget (memIdx : Nat) (slot : Option Nat) (s : ProcState) (e : Nat) :
    Except Fault ProcState := do
  match s.opt.entries[e]? with
  | none => throw .nullPointer
  | some en =>
    match (en.ptrmem.bind (s.opt.ptrmems[·]?)).map (·.vOffs[memIdx]?) with
    | none => throw .nullPointer
    | some none => throw .outOfBounds
    | some (some memOffs) =>
      let (buf, s) ← fillCacheAndBuf chunk en.type en.cache en.cacheData memOffs s.buf s
      match buf with
      | none => return s
      | some buf => changeMemory chunk e en memOffs slot (s.setBuf buf)

/-- The object of a pointer: the slot of its old value and its address. -/
def pointerSlot (opt : Options) (dynmem : Option Nat) (memIdx : Nat) :
    Except Fault (Option Nat × Ptr) :=
  match opt.dynmem? dynmem with
  | none => .ok (none, 0)
  | some dm =>
    match dm.vMaddr[memIdx]? with
    | none => .error .outOfBounds
    | some memOffs => .ok (some memIdx, memOffs)

/-- The pointer is settled: the entries of the pointer section are processed. -/
def followPtr (en : CfgEntry) (e p : Nat) (ptrtgt : PtrMemEntry) (memIdx : Nat)
    (slot : Option Nat) (s : ProcState) : Except Fault ProcState := do
  let state : PtrState := if en.dynval = .ptrOnce then .done else .settled
  let s := (s.modifyPtrmem p fun pm =>
    { pm with vState := pm.vState.set memIdx state, vOffs := pm.vOffs.set memIdx s.buf }).emit
      (.follow e memIdx s.buf)
  let s := s.invalidateCaches (.ptrmem p)
  let s ← ptrtgt.cfgAct.foldlM (processTarget chunk memIdx slot) s
  return s.writeCaches (.ptrmem p)

/-- `process_ptrmem`: the value of the pointer is in `buf`. -/
def processPtrmem (e : Nat) (en : CfgEntry) (memIdx : Nat) (s : ProcState) :
    Except Fault ProcState := do
  match en.ptrtgt.bind fun p => (s.opt.ptrmems[p]?).map (p, ·) with
  | none => throw .nullPointer
  | some (p, ptrtgt) =>
    let (slot, memOffs) ← pointerSlot s.opt ptrtgt.dynmem memIdx
    if slot.isSome ∧ memOffs = 0 then return s
    let s := s.emit (.pointer e memIdx s.buf (((s.opt.entries[e]?).bind (·.vals.old? slot)).getD 0))
    if s.buf = 0 then return s
    match ptrtgt.vState[memIdx]? with
    | none => throw .outOfBounds
    | some .done => return s
    | some _ =>
      match (s.opt.entries[e]?).bind (·.vals.old? slot) with
      | none => throw .outOfBounds
      | some value =>
        if s.buf = value then
          let (passed, s) ← passChecks chunk en memOffs s
          if passed = false then return s
          followPtr chunk en e p ptrtgt memIdx slot s
        else return s.modifyVals e (·.setOld slot s.buf)

/-- The value that was read is in `buf`. -/
def processValue (e : Nat) (en : CfgEntry) (memOffs : Ptr) (memIdx : Nat) (slot : Option Nat)
    (s : ProcState) : Except Fault ProcState :=
  if en.ptrtgt.isSome then processPtrmem chunk e en memIdx s
  else changeMemory chunk e en memOffs slot s

/-! ## Objects -/

/-- An entry of the class for the object `memIdx`. -/
def processObjEntry (d memIdx : Nat) (s : ProcState) (e : Nat) : Except Fault ProcState := do
  match s.opt.dynmems[d]?, s.opt.entries[e]? with
  | some dm, some en =>
    match dm.vMaddr[memIdx]? with
    | none => throw .outOfBounds
    | some memOffs =>
      if memOffs = 0 then return s
      match dm.vMsize[memIdx]? with
      | none => throw .outOfBounds
      | some memSize =>
        -- check for out of bounds access
        if en.addr + BitVec.ofNat 64 en.type.bytes > memSize then return s
        let s := s.modifyDynmem d fun dm => { dm with objIdx := memIdx }
        let (buf, s) ← fillCacheAndBuf chunk en.type en.cache en.cacheData memOffs s.buf s
        match buf with
        | none => return s
        | some buf => processValue chunk e en memOffs memIdx (some memIdx) (s.setBuf buf)
  | _, _ => throw .nullPointer

def processObj (d : Nat) (cfgAct : List Nat) (s : ProcState) (memIdx : Nat) :
    Except Fault ProcState := do
  let s := s.invalidateCaches (.dynmem d)
  let s ← cfgAct.foldlM (processObjEntry chunk d memIdx) s
  return s.writeCaches (.dynmem d)

/-- `process_dynmem_cfg_act`: object by object. -/
def processDynmemCfgAct (d : Nat) (s : ProcState) : Except Fault ProcState := do
  match s.opt.dynmems[d]? with
  | none => throw .nullPointer
  | some dm =>
    let s' ← (List.range dm.vMaddr.length).foldlM (processObj chunk d dm.cfgAct) (s.setBuf 0)
    return s'.setBuf s.buf

/-! ## One cycle -/

/-- An entry outside of classes. -/
def processStaticEntry (e : Nat) (en : CfgEntry) (s : ProcState) : Except Fault ProcState := do
  if en.type.isLate s.opt.libs then return s
  let (buf, s) ← fillCacheAndBuf chunk en.type en.cache en.cacheData 0 s.buf s
  match buf with
  | none => return s
  | some buf => processValue chunk e en 0 0 none (s.setBuf buf)

/-- The loop over the activated entries: a class is processed at the first of its entries that
stand together. -/
def processEntries (oldDynmem : Option Nat) : List Nat → ProcState → Except Fault ProcState
  | [], s => .ok s
  | e :: cfgAct, s => do
    match s.opt.entries[e]? with
    | none => throw .nullPointer
    | some en =>
      match en.dynmem with
      | some d =>
        if some d = oldDynmem then processEntries oldDynmem cfgAct s
        else
          let s ← processDynmemCfgAct chunk d s
          processEntries (some d) cfgAct s
      | none =>
        let s ← processStaticEntry chunk e en s
        processEntries oldDynmem cfgAct s

/-- The caches that are invalidated and written back once in a cycle, in the order of writing. -/
def Options.cycleCaches (opt : Options) : List MemType :=
  (List.range opt.libs.length).map .lib ++ (if opt.valOnStack then [.stack] else []) ++ [.opt]

/-- `process_act_cfg`. -/
def processActCfg (cfgAct : List Nat) (s : ProcState) : Except Fault ProcState := do
  let mems := s.opt.cycleCaches
  let s := mems.foldl (fun s mem => s.invalidateCaches mem) (s.setBuf 0)
  let s ← processEntries chunk none cfgAct s
  return mems.foldl (fun s mem => s.writeCaches mem) s

end Process

end UgTrain
