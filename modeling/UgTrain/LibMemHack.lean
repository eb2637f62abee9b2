import UgTrain.CfgEntry

/-!
# libmemhack (`linuxhooking/libmemhack.c`)

The library in the game. `readConfig` reads the config that ugtrain sends, `relocConfig` adds the
code offsets of the second message, and `postprocessMalloc` decides for an allocation whether it
belongs to an entry of the config.

* `start` is a position in a buffer, the text from there on. The C string ends at a `nul` byte, at
  the line break that `RM_NEW_LINE` overwrites, or at the end of the buffer.
* The addresses of the objects (`mem_addrs` and what goes with it) are in `MemAddrs`. An allocation
  that fails (`calloc`) is left out.
-/

namespace UgTrain

open CLib

/-- `struct grow` -/
structure HackGrow where
  sizeMin : SizeT
  sizeMax : SizeT
  type : GrowType
  add : U32
  codeAddr : Ptr
  codeOffs : Ptr
  stackOffs : Ptr
  lib : Option Str
  deriving DecidableEq, Repr, Inhabited

/-- `struct cfg` -/
structure HackCfg where
  memSize : SizeT
  codeAddr : Ptr
  codeOffs : Ptr
  stackOffs : Ptr
  lib : Option Str
  grow : Option HackGrow
  deriving DecidableEq, Repr, Inhabited

/-! ## Reading the config -/

/-- `SET_IBUF_START`: behind the next `;`. -/
def setIbufStart (start : Str) : Str :=
  match strchr start ';' with
  | some i => start.drop (i + 1)
  | none => start

/-- `SET_CODE_LIB`: the library, `none` for the executable, and the position behind it. -/
def setCodeLib (start : Str) : Option Str × Str :=
  let name := match strchr start ';' with
    | some i => start.take i
    | none => cstr start
  (if name = exeLib then none else some name, setIbufStart start)

/-- `sscanf(start, "%zd;0x%lx;0x%lx", ..)`, if it scans all three numbers. -/
def scanEssentials (start : Str) : Option (SizeT × Ptr × Ptr) := do
  let (memSize, s) ← scanLong start
  let s ← scanLit [';'] s
  let (codeAddr, s) ← scanPtr s
  let s ← scanLit [';'] s
  let (stackOffs, _) ← scanPtr s
  return (memSize, codeAddr, stackOffs)

/-- `sscanf(start, "%zd;%zd;%c%u;0x%lx;0x%lx", ..)`, if it scans all six fields and the third one
is `+` or `*`. -/
def scanGrow (start : Str) : Option HackGrow := do
  let (sizeMin, s) ← scanLong start
  let s ← scanLit [';'] s
  let (sizeMax, s) ← scanLong s
  let s ← scanLit [';'] s
  let opCh ← scanChar s
  let (add, s) ← scanULong 10 (s.drop 1)
  let s ← scanLit [';'] s
  let (codeAddr, s) ← scanPtr s
  let s ← scanLit [';'] s
  let (stackOffs, _) ← scanPtr s
  if opCh = '*' then
    return ⟨sizeMin, sizeMax, .mul, add.setWidth 32, codeAddr, codeAddr, stackOffs, none⟩
  else if opCh = '+' then
    return ⟨sizeMin, sizeMax, .add, add.setWidth 32, codeAddr, codeAddr, stackOffs, none⟩
  else none

/-- The growth rule behind `grow;`, and the position behind it. -/
def readGrow (start : Str) : Option (HackGrow × Str) := do
  let grow ← scanGrow start
  let (lib, start) := setCodeLib (setIbufStart^[5] start)
  return ({ grow with lib := lib }, start)

/-- One round of the loop that reads the config. -/
def readCfg (start : Str) : Option (HackCfg × Str) := do
  let (memSize, codeAddr, stackOffs) ← scanEssentials start
  let (lib, start) := setCodeLib (setIbufStart^[3] start)
  let cfg : HackCfg := ⟨memSize, codeAddr, codeAddr, stackOffs, lib, none⟩
  if (cstr start).take 5 = growTag then
    let (grow, start) ← readGrow (setIbufStart start)
    return ({ cfg with grow := some grow }, start)
  else
    return (cfg, start)

/-- The loop: `numCfg` entries. -/
def readCfgs : Nat → Str → Option (List HackCfg)
  | 0, _ => some []
  | numCfg + 1, start => do
    let (cfg, start) ← readCfg start
    let cfgs ← readCfgs numCfg start
    return cfg :: cfgs

/-- `GBT_CMD` -/
def gbtCmd : Str := "gbt".toList

/-- `sscanf(start, "%3s;", gbt_buf)` -/
def scanWord (start : Str) : Str :=
  ((cstr (start.dropWhile isSpace)).takeWhile (!isSpace ·)).take 3

/-- `BUF_SIZE` -/
def bufSize : Nat := pipeBuf

/-- `read_input`: what is in `ibuf` after the text was read from the FIFO. -/
def readInput (text : Str) : Str := text.take (bufSize - 1)

/-- The config in `ibuf`: whether to use the GNU backtrace, and the config array. -/
def readConfig (ibuf : Str) : Option (Bool × List HackCfg) := do
  let (n, _) ← scanULong 10 ibuf
  let numCfg : U32 := n.setWidth 32
  if numCfg = 0 then none
  let start := setIbufStart (ibuf.takeWhile (· ≠ '\n'))
  let useGbt := scanWord start = gbtCmd
  let cfgs ← readCfgs numCfg.toNat (if useGbt then setIbufStart start else start)
  return (useGbt, cfgs)

/-! ## Early PIC and PIE handling -/

/-- `sscanf(start, "0x%lx;", ..)`: the next code offset, 0 if there is none. -/
def readOffs (start : Str) : Ptr × Str :=
  match scanPtr start with
  | some (codeOffs, _) => (codeOffs, setIbufStart start)
  | none => (0, start)

/-- `if (code_addr) code_addr += code_offs` -/
def addOffs (codeAddr codeOffs : Ptr) : Ptr := if codeAddr ≠ 0 then codeAddr + codeOffs else codeAddr

/-- An entry without a size and without a growth rule: it is skipped. -/
def HackCfg.noMem (cfg : HackCfg) : Bool := cfg.memSize = 0 && cfg.grow.isNone

/-- One round of the loop that adds the code offsets. -/
def relocCfg (cfg : HackCfg) (start : Str) : HackCfg × Str :=
  if cfg.noMem then (cfg, start)
  else
    let (codeOffs, start) := readOffs start
    let cfg := { cfg with codeAddr := addOffs cfg.codeAddr codeOffs }
    match cfg.grow with
    | none => (cfg, start)
    | some grow =>
      let (codeOffs, start) := readOffs start
      ({ cfg with grow := some { grow with codeAddr := addOffs grow.codeAddr codeOffs } }, start)

def relocCfgs : List HackCfg → Str → List HackCfg
  | [], _ => []
  | cfg :: cfgs, start =>
    let (cfg, start) := relocCfg cfg start
    cfg :: relocCfgs cfgs start

/-- The config array after the message with the code offsets; a single entry of a pure stack value
config does not wait for it. -/
def relocConfig (config : List HackCfg) (ibuf : Str) : List HackCfg :=
  match config with
  | [cfg] => if cfg.noMem then [cfg] else relocCfgs [cfg] ibuf
  | config => relocCfgs config ibuf

/-! ## Allocations -/

/-- Where an allocation comes from: the frame pointer and the stack of the caller, or the
addresses that `backtrace` gives. -/
structure Caller where
  ffp : Ptr
  stackEnd : Ptr
  /-- The eight bytes at an address of the stack. -/
  stack : Ptr → Ptr
  useGbt : Bool
  trace : List Ptr

/-- The code address and the stack offset to look for, if the size fits to the entry. -/
def HackCfg.selects (cfg : HackCfg) (size : SizeT) : Option (Ptr × Ptr) :=
  if size = cfg.memSize then some (cfg.codeAddr, cfg.stackOffs)
  else
    match cfg.grow with
    | none => none
    | some grow =>
      let add : SizeT := grow.add.setWidth 64
      match grow.type with
      | .mul =>
        if size > grow.sizeMax * add ∨ size < grow.sizeMin * add ∨ size % add ≠ 0 then none
        else some (grow.codeAddr, grow.stackOffs)
      | .add =>
        if size > grow.sizeMax ∨ size < grow.sizeMin ∨ size % add ≠ 0 then none
        else some (grow.codeAddr, grow.stackOffs)

/-- Whether the allocation comes from the code address. The first address of a backtrace is our
own one. -/
def Caller.comesFrom (c : Caller) (codeAddr stackOffs : Ptr) : Bool :=
  if c.useGbt then (c.trace.drop 1).contains codeAddr
  else
    let stackAddr := c.ffp + stackOffs
    !(stackAddr > c.stackEnd - 8) && c.stack stackAddr = codeAddr

/-- The loop of `postprocess_malloc`: the first entry that the allocation belongs to, and the code
address for the message. -/
def postprocessMalloc (c : Caller) (size : SizeT) : List HackCfg → Option (Nat × Ptr)
  | [] => none
  | cfg :: config =>
    match cfg.selects size with
    | some (codeAddr, stackOffs) =>
      if c.comesFrom codeAddr stackOffs then some (0, codeAddr)
      else (postprocessMalloc c size config).map fun (i, a) => (i + 1, a)
    | none => (postprocessMalloc c size config).map fun (i, a) => (i + 1, a)

end UgTrain
