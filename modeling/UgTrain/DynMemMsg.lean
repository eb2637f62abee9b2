import UgTrain.MemMgmt
import UgTrain.Regions

/-!
# The messages to libmemhack (`prepare_dynmem`, `handle_aslr`)

`prepareDynmem` writes the config of the classes, `handleAslr` relocates their code addresses and
writes the list of the code offsets. Both go along the entries of the config and take a class when
it comes first: `prepareDynmem` compares code address and library with those of the last class it
took, `handleAslr` the class itself.

* `obuf` is the text that was printed so far, also what `snprintf` had to cut off: `pos` and
  `osize` count it. `prepare_dynmem` checks the length at the end. `handle_aslr` does not: it leaves
  its buffer with the first text behind the end, or with a `write` of more than the buffer.
* The string for discovery is in `Discovery`, the writing in the buffer in `MsgBuf`. The process and
  region handling around the two messages is left out.
-/

namespace UgTrain

open CLib

/-! ## The config -/

/-- The name of a library in the message. -/
def libText : Option LibStr → Str
  | some lib => lib.name
  | none => exeLib

/-- `ADD_DYNMEM_ESSENTIALS` -/
def DynMemEssentials.text (es : DynMemEssentials) : Str :=
  ';' :: printDec es.memSize.toNat ++ ';' :: printHex es.codeAddr ++ ';' :: printHex es.stackOffs ++
    ';' :: libText es.lib

def GrowType.opCh : GrowType → Char
  | .mul => '*'
  | .add => '+'

def GrowEntry.text (grow : GrowEntry) : Str :=
  ';' :: growTag ++ printDec grow.sizeMin.toNat ++ ';' :: printDec grow.sizeMax.toNat ++
    ';' :: grow.type.opCh :: printDec grow.add.toNat ++ ';' :: printHex grow.codeAddr ++
    ';' :: printHex grow.stackOffs ++ ';' :: libText grow.lib

/-- A class with its constructors and its growth rule. -/
def DynMemEntry.text (dynmem : DynMemEntry) : Str :=
  dynmem.toDynMemEssentials.text ++ (dynmem.consts.map (·.text)).flatten ++
    dynmem.grow.elim [] (·.text)

/-- The local variables of `prepare_dynmem`; `oldLib` is a pointer. -/
structure PrepareState where
  obuf : Str
  numCfg : Nat
  oldCodeAddr : Ptr
  oldGrowAddr : Ptr
  oldLib : Option Nat
  deriving DecidableEq, Repr

/-- The class differs from the last one that was taken. -/
def PrepareState.isNew (st : PrepareState) (dynmem : DynMemEntry) : Bool :=
  match dynmem.grow with
  | none => dynmem.codeAddr ≠ st.oldCodeAddr || dynmem.lib.map (·.id) ≠ st.oldLib
  | some grow => grow.codeAddr ≠ st.oldGrowAddr || grow.lib.map (·.id) ≠ st.oldLib

def PrepareState.add (st : PrepareState) (dynmem : DynMemEntry) : PrepareState :=
  let st := { st with
    obuf := st.obuf ++ dynmem.text
    numCfg := st.numCfg + 1 + dynmem.consts.length }
  match dynmem.grow with
  | none => { st with oldCodeAddr := dynmem.codeAddr, oldLib := dynmem.lib.map (·.id) }
  | some grow => { st with oldGrowAddr := grow.codeAddr, oldLib := grow.lib.map (·.id) }

/-- The class of an entry. -/
def CfgMem.dynmemOf (cfg : CfgMem) (en : CfgEntry) : Option DynMemEntry :=
  en.dynmem.bind (cfg.dynmems[·]?)

/-- One round of the loop over the entries. -/
def PrepareState.step (cfg : CfgMem) (st : PrepareState) (en : CfgEntry) : PrepareState :=
  match cfg.dynmemOf en with
  | none => st
  | some dynmem => if st.isNew dynmem then st.add dynmem else st

/-- `prepare_dynmem` without discovery: the text that is written to the FIFO, if there is a class
and the text fits. -/
def prepareDynmem (useGbt : Bool) (cfg : CfgMem) : Option Str :=
  let gbt : Str := if useGbt then ";gbt".toList else []
  let st := cfg.entries.foldl (PrepareState.step cfg) ⟨gbt, 0, 0, 0, none⟩
  let numText := printDec st.numCfg
  let pos := st.obuf.length + numText.length
  if pos + numText.length + 2 > pipeBuf then none
  else if st.numCfg = 0 then none
  else some (numText ++ st.obuf ++ ['\n', nul])

/-! ## The code offsets -/

/-- Where the code of an item is loaded. -/
structure LoadAddrs where
  exeOffs : Ptr
  rlist : List Region

def LoadAddrs.codeOffs (l : LoadAddrs) : Option LibStr → Ptr
  | none => l.exeOffs
  | some lib => if lib.name = [] then l.exeOffs else findLibRegion l.rlist lib.name

def DynMemEssentials.reloc (es : DynMemEssentials) (codeOffs : Ptr) : DynMemEssentials :=
  { es with codeAddr := es.codeAddr + codeOffs }

def GrowEntry.reloc (grow : GrowEntry) (codeOffs : Ptr) : GrowEntry :=
  { grow with codeAddr := grow.codeAddr + codeOffs }

/-- The code addresses of a class, of its constructors and of its growth rule are relocated. -/
def DynMemEntry.reloc (l : LoadAddrs) (dynmem : DynMemEntry) : DynMemEntry :=
  { dynmem with
    codeAddr := dynmem.codeAddr + l.codeOffs dynmem.lib
    consts := dynmem.consts.map fun es => es.reloc (l.codeOffs es.lib)
    grow := dynmem.grow.map fun grow => grow.reloc (l.codeOffs grow.lib) }

/-- The code offsets of a class in the order in which they are sent. -/
def DynMemEntry.offsets (l : LoadAddrs) (dynmem : DynMemEntry) : List Ptr :=
  l.codeOffs dynmem.lib :: dynmem.consts.map (fun es => l.codeOffs es.lib) ++
    dynmem.grow.toList.map fun grow => l.codeOffs grow.lib

/-- `snprintf(obuf + osize, sizeof(obuf) - osize, "0x%lx;", ..)`: behind the end of the buffer its
size wraps around. -/
def addOffsText (obuf : Str) (codeOffs : Ptr) : Except Fault Str :=
  if obuf.length ≤ pipeBuf then .ok (obuf ++ (printHex codeOffs ++ [';']))
  else .error .outOfBounds

/-- `write(ofd, obuf, osize)` -/
def writeOffs (obuf : Str) : Except Fault Str :=
  if obuf.length ≤ pipeBuf then .ok ((snprintfBytes pipeBuf obuf).take obuf.length)
  else .error .outOfBounds

/-- The local variables of `handle_aslr` and the classes. -/
structure AslrState where
  obuf : Str
  dynmems : List DynMemEntry
  oldDynmem : Option Nat

/-- One round of the loop over the entries. -/
def AslrState.step (l : LoadAddrs) (st : AslrState) (en : CfgEntry) : Except Fault AslrState :=
  match en.dynmem.bind fun d => (st.dynmems[d]?).map (d, ·) with
  | none => .ok st
  | some (d, dynmem) =>
    if some d = st.oldDynmem then .ok st
    else do
      let obuf ← (dynmem.offsets l).foldlM addOffsText st.obuf
      return ⟨obuf, st.dynmems.set d (dynmem.reloc l), some d⟩

/-- `handle_aslr` for libmemhack: the relocated classes and the list that is written. -/
def handleAslr (l : LoadAddrs) (cfg : CfgMem) : Except Fault (CfgMem × Str) := do
  let st ← cfg.entries.foldlM (AslrState.step l) ⟨[], cfg.dynmems, none⟩
  let text ← writeOffs st.obuf
  return ({ cfg with dynmems := st.dynmems }, text)

end UgTrain
