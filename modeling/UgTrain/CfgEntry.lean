import UgTrain.CLib.Scan

/-!
# The config in memory (`cfgentry.h`)

The entries of the config and what ugtrain keeps for them while the game runs.

* A C++ pointer to an entry of one of the config's lists is the index of that entry in its
  list: `dynmem`, `ptrmem`, `ptrtgt`, `lib`, `cfgRef` are such indices, `none` is `NULL`.
* `cache` is a `CacheRef`: the cache list (`MemType`, the argument of the cache macros) and the
  position in it. `cacheData` is `cache_data - cache->data`, the offset of the value in its chunk.
* `Value` is the union `value_t` as its eight bytes, the first one lowest (little endian).
* What changes while values are processed (`value`, `old_val`, `val_set`, the vectors per object)
  is in `EntryVals`; the rest of `CfgEntry` only changes at start and relocation.
-/

namespace UgTrain

open CLib

/-- `ptr_t`. -/
abbrev Ptr := BitVec 64
/-- `size_t`. -/
abbrev SizeT := BitVec 64
/-- `u32`. -/
abbrev U32 := BitVec 32
/-- `value_t`. -/
abbrev Value := BitVec 64
/-- `string` and `char *`. -/
abbrev Str := List Char

/-- `PTR_MAX`: shows that a cache is invalid. -/
def ptrMax : Ptr := BitVec.allOnes 64

/-- `PIPE_BUF`. -/
def pipeBuf : Nat := 4096

/-- `MAX_CHK_VALS`. -/
def maxChkVals : Nat := 4

/-- `MAX_CSTR`. -/
def maxCstr : Nat := 128

/-- The library name that stands for the executable. -/
def exeLib : Str := "exe".toList

/-- What starts a growth rule in the config message. -/
def growTag : Str := "grow;".toList

/-- The lists of caches: of a class, of a pointer section, of the stack, of a library, and of
the executable (`opt`). -/
inductive MemType where
  | dynmem (i : Nat)
  | ptrmem (i : Nat)
  | stack
  | lib (i : Nat)
  | opt
  deriving DecidableEq, Repr, Inhabited

/-- A pointer to a cache: the list it is in and its position. -/
structure CacheRef where
  mem : MemType
  idx : Nat
  deriving DecidableEq, Repr, Inhabited

structure CacheEntry where
  /-- Offset within the object, or the address of static memory. -/
  offs : Ptr
  /-- Target memory address, or `ptrMax` if the cache is not valid. -/
  start : Ptr
  /-- The copy of the target memory. -/
  data : List UInt8
  isDirty : Bool
  deriving DecidableEq, Repr, Inhabited

structure LibEntry where
  name : Str
  /-- The load address, 0 before it is known. -/
  start : Ptr
  isLoaded : Bool
  skipVal : Bool
  deriving DecidableEq, Repr, Inhabited

structure DumpEntry where
  addr : Ptr
  memSize : SizeT
  lib : Option Nat
  deriving DecidableEq, Repr, Inhabited

inductive GrowType where
  | add
  | mul
  deriving DecidableEq, Repr, Inhabited

/-- A `string *`: the code compares the pointers of some library names, so a name comes with
the identity of its string. -/
structure LibStr where
  id : Nat
  name : Str
  deriving DecidableEq, Repr, Inhabited

structure GrowEntry where
  sizeMin : SizeT
  sizeMax : SizeT
  type : GrowType
  add : U32
  codeAddr : Ptr
  codeOffs : Ptr
  stackOffs : Ptr
  lib : Option LibStr
  deriving DecidableEq, Repr, Inhabited

structure DynMemEssentials where
  memSize : SizeT
  codeAddr : Ptr
  codeOffs : Ptr
  stackOffs : Ptr
  lib : Option LibStr
  deriving DecidableEq, Repr, Inhabited

/-- A dynamic memory class. `vMaddr` and `vMsize` are the addresses and the sizes of its objects;
the address 0 marks an object to be removed. -/
structure DynMemEntry extends DynMemEssentials where
  name : Str
  consts : List DynMemEssentials
  grow : Option GrowEntry
  cfgAct : List Nat
  vMaddr : List Ptr
  vMsize : List SizeT
  numAlloc : Nat
  numFreed : Nat
  objIdx : Nat
  deriving DecidableEq, Repr, Inhabited

/-- `ptr_e`. -/
inductive PtrState where
  | init
  | settled
  | done
  deriving DecidableEq, Repr, Inhabited

structure PtrMemEntry where
  name : Str
  memSize : SizeT
  cfg : List Nat
  cfgAct : List Nat
  dynmem : Option Nat
  vState : List PtrState
  vOffs : List Ptr
  deriving DecidableEq, Repr, Inhabited

/-- `dynval_e`. -/
inductive DynVal where
  | off
  | min
  | max
  | addr
  | watch
  | ptrOnce
  | ptrAlways
  deriving DecidableEq, Repr, Inhabited

/-- `check_e`. -/
inductive Check where
  | off
  | lt
  | gt
  | eq
  | fin
  deriving DecidableEq, Repr, Inhabited

/-- `struct type`; `size` is the number of bits, an `i32` by its bit pattern. -/
structure VType where
  lib : Option Nat
  onStack : Bool
  isSigned : Bool
  isFloat : Bool
  isCstr : Bool
  isCstrp : Bool
  size : Nat
  deriving DecidableEq, Repr, Inhabited

/-- `size / 8` as a `size_t`: the division is signed, and a negative number of bytes is a large one. -/
def VType.bytes (type : VType) : Nat :=
  (BitVec.ofInt 64 ((BitVec.ofNat 32 type.size).toInt.tdiv 8)).toNat

structure CheckEntry where
  addr : Ptr
  cfgRef : Option Nat
  isObjcheck : Bool
  isHeapchk : Bool
  checkObjNum : Bool
  /-- The line stands behind the end of the section that its entry is in. -/
  outside : Bool
  type : VType
  /-- The alternatives and `Check.fin` behind them: `MAX_CHK_VALS + 1` elements. -/
  check : List Check
  value : List Value
  cache : Option CacheRef
  cacheData : Ptr
  deriving DecidableEq, Repr, Inhabited

/-- The part of an entry that changes while values are processed. -/
structure EntryVals where
  value : Value
  oldVal : Value
  cstr : Option (List UInt8)
  valSet : Bool
  /-- Wish value, old value and C string per object. -/
  vValue : List Value
  vOldval : List Value
  vCstr : List (Option (List UInt8))
  deriving DecidableEq, Repr, Inhabited

structure CfgEntry where
  name : Str
  addr : Ptr
  type : VType
  check : Check
  dynval : DynVal
  valAddr : Ptr
  cfgRef : Option Nat
  cfgRefAdd : BitVec 64
  checks : Option (List CheckEntry)
  dynmem : Option Nat
  cache : Option CacheRef
  cacheData : Ptr
  ptrmem : Option Nat
  ptrtgt : Option Nat
  vals : EntryVals
  deriving DecidableEq, Repr, Inhabited

end UgTrain
