import UgTrain.LibMemHack

/-!
# The discovery string (`discovery.cpp`, `linuxhooking/libmemdisc.c`)

`prepareDiscovery` checks the string that the user gives and takes the library of the backtrace
filter from it; the string is then sent to libmemdisc, where `memdiscInit` reads it again. Afterwards
both sides decide by what they have read whether the code addresses have to be relocated: libmemdisc
sends a notification and reads the bounds of the filter, ugtrain waits for it and answers.

* A string from the command line has no `nul`. `disc_str` is empty without a discovery.
* The scans of `";%lu"` and `";%zd"` give -1 (`EOF`) where the text ends before the number.
* What the stages do with what was read is left out, and so are the tools that the stages start.
-/

namespace UgTrain

open CLib

/-- The backtrace filter. -/
inductive BtFilter where
  | none
  | exe
  | lib (name : Str)
  deriving DecidableEq, Repr

/-! ## Reading -/

/-- `strstr` -/
def strstr (s pat : Str) : Option Nat :=
  match s with
  | [] => if pat = [] then some 0 else none
  | c :: cs =>
    if pat.isPrefixOf (c :: cs) then some 0 else if c = nul then none else (strstr cs pat).map (· + 1)

/-- `sscanf(s, ";%lu", ..) < 0`: the text ends before the number. -/
def endsBeforeNum : Str → Bool
  | [] => true
  | c :: s => c = nul || (c = ';' && (cstr s).all isSpace)

/-- `sscanf(s, ";%lu;0x%lx", ..)`, if it scans the size; the address stays 0 without its number. -/
def scanSizeAddr (scan : Str → Option (Value × Str)) (s : Str) : Option (Value × Ptr) := do
  let s ← scanLit [';'] s
  let (size, s) ← scan s
  return (size, (((scanLit [';'] s).bind scanPtr).map (·.1)).getD 0)

/-- `parse_bt_filter` of both programs: the name of the filter, if there is one, and the text from the
`;` behind it. -/
def filterName (discPart : Str) : Option (Option Str × Str) :=
  match discPart with
  | ';' :: c :: s =>
    if c.isAlpha then (strchr (c :: s) ';').map fun i => (some ((c :: s).take i), (c :: s).drop i)
    else some (none, discPart)
  | _ => some (none, discPart)

/-! ## ugtrain -/

/-- `disc_str`, `disc_offs`, `disc_lib` and `code_addr` of the options, and the size that was read. -/
structure Disc where
  discStr : Str
  discOffs : Nat
  discLib : Str
  codeAddr : Ptr
  memSize : SizeT
  deriving DecidableEq, Repr

/-- The value of `disc_lib` for the executable. -/
def discExe : Str := ['\x01']

/-- The value of `disc_lib`: by the first letters of the name. -/
def setDiscLib (name : Str) : Str := if name.take 3 = exeLib then discExe else name

/-- The offset of the stage: behind the config of a pointer. -/
def discOffs : Str → Option Nat
  | 'p' :: s => (strstr s ";;".toList).map (· + 3)
  | _ => some 0

/-- The stages 3 and 4 of `prepare_discovery`. -/
def prepareStage34 (discStr : Str) (offs : Nat) (discPart : Str) : Option Disc := do
  let (name, discPart) ← filterName discPart
  let (memSize, codeAddr) ← scanSizeAddr (scanULong 10) discPart
  if memSize = 0 then none
  else return ⟨discStr, offs, name.elim [] setDiscLib, codeAddr, memSize⟩

/-- Behind the stage 3: without the request for the GNU backtrace. -/
def skipGbt (s : Str) : Str := if s.take 5 = ";gbt;".toList then s.drop 4 else s

/-- `prepare_discovery` -/
def prepareDiscovery (discStr : Str) : Option Disc := do
  let offs ← discOffs discStr
  match discStr.drop offs with
  | [] => none
  | stage :: s =>
    if stage = '0' then return ⟨"0".toList, 0, [], 0, 0⟩
    else if stage = '1' ∨ stage = '2' then
      if s = [] then return ⟨discStr ++ ";0".toList, offs, [], 0, 0⟩
      else if endsBeforeNum s then none
      else return ⟨discStr, offs, [], 0, ((scanSizeAddr (scanULong 10) s).map (·.1)).getD 0⟩
    else if stage = '3' then prepareStage34 discStr offs (skipGbt s)
    else if stage = '4' then prepareStage34 discStr offs s
    else none

/-- `prepare_dynmem` with a discovery: the text that is sent. -/
def sendDiscovery (d : Disc) : Option Str :=
  if d.discStr.length + 2 > pipeBuf then none else some (d.discStr ++ ['\n', nul])

/-- `disc_str->at(0)` in `process_discovery`. -/
def Disc.first (d : Disc) : Char :=
  if d.discStr.head? = some 'p' then (d.discStr.drop d.discOffs).headD nul else d.discStr.headD nul

def Disc.stage (d : Disc) : Nat := d.first.toNat - '0'.toNat

/-- `process_discovery` calls `handle_aslr`, which waits for the notification. -/
def Disc.waits (d : Disc) : Bool :=
  ('1' ≤ d.first && d.first ≤ '4') && ('3' ≤ d.first || 0 < d.discOffs)

/-- The number of addresses that `handle_aslr` answers with. -/
def Disc.answers (d : Disc) : Nat :=
  if d.discLib = [] then 0 else if d.discLib.head? = some '\x01' then 3 else 2

def Disc.filter (d : Disc) : BtFilter :=
  if d.discLib = [] then .none else if d.discLib.head? = some '\x01' then .exe else .lib d.discLib

/-! ## libmemdisc -/

/-- `ptr_cfg`, without the address that `malloc` fills in. -/
structure PtrCfg where
  memSize : SizeT
  codeAddr : Ptr
  stackOffs : Ptr
  ptrOffs : Ptr
  deriving DecidableEq, Repr

/-- The static variables that `memdisc_init` sets. -/
structure MemDisc where
  stage : Nat
  ptrCfg : Option PtrCfg
  btFilter : Option Str
  mallocSize : SizeT
  codeAddr : Ptr
  useGbt : Bool
  deriving DecidableEq, Repr

/-- The value of `bt_filter`: by the whole name. -/
def setBtFilter (name : Str) : Str := if name = exeLib then [] else name

/-- `sscanf(iptr, ";%zd;0x%lx;0x%lx;0x%lx", ..)`, if it scans all four numbers. -/
def scanPtrCfg (s : Str) : Option PtrCfg := do
  let s ← scanLit [';'] s
  let (memSize, s) ← scanLong s
  let s ← scanLit [';'] s
  let (codeAddr, s) ← scanPtr s
  let s ← scanLit [';'] s
  let (stackOffs, s) ← scanPtr s
  let s ← scanLit [';'] s
  let (ptrOffs, _) ← scanPtr s
  return ⟨memSize, codeAddr, stackOffs, ptrOffs⟩

/-- `sscanf(iptr, ";%3s;", gbt_buf) == 1`, and the word is `GBT_CMD`. -/
def wantsGbt (s : Str) : Bool := (scanLit [';'] s).map scanWord = some gbtCmd

/-- The stages 3 and 4 of `memdisc_init`. -/
def readStage34 (stage : Nat) (ptrCfg : Option PtrCfg) (useGbt : Bool) (s : Str) :
    Option MemDisc := do
  let (name, s) ← filterName s
  let (mallocSize, codeAddr) ← scanSizeAddr scanLong s
  return ⟨stage, ptrCfg, name.map setBtFilter, mallocSize, if stage = 3 then 0 else codeAddr,
    useGbt && mallocSize ≠ 0⟩

/-- The `switch` of `memdisc_init`. -/
def readStage (ptrCfg : Option PtrCfg) : Str → Option MemDisc
  | [] => none
  | stage :: s =>
    if stage = '1' then some ⟨1, ptrCfg, none, 0, 0, false⟩
    else if stage = '2' then
      if endsBeforeNum s then none
      else some ⟨2, ptrCfg, none, ((scanSizeAddr scanLong s).map (·.1)).getD 0, 0, false⟩
    else if stage = '3' then readStage34 3 ptrCfg (wantsGbt s) (if wantsGbt s then s.drop 4 else s)
    else if stage = '4' then readStage34 4 ptrCfg false s
    else none

/-- `memdisc_init`: what it has read, unless it stays inactive. -/
def memdiscInit (ibuf : Str) : Option MemDisc :=
  match ibuf with
  | 'p' :: s => do
    let ptrCfg ← scanPtrCfg s
    let pos ← strstr s ";;".toList
    readStage (some ptrCfg) (s.drop (pos + 2))
  | stage :: _ => if '1' ≤ stage ∧ stage ≤ '4' then readStage none ibuf else none
  | [] => none

/-- libmemdisc sends the notification. -/
def MemDisc.notifies (m : MemDisc) : Bool :=
  3 ≤ m.stage || m.ptrCfg.any (·.codeAddr ≠ 0)

/-- The number of addresses that libmemdisc reads after its notification. -/
def MemDisc.reads (m : MemDisc) : Nat :=
  match m.btFilter with
  | none => 0
  | some [] => 3
  | some (_ :: _) => 2

def MemDisc.filter (m : MemDisc) : BtFilter :=
  match m.btFilter with
  | none => .none
  | some [] => .exe
  | some name => .lib name

/-- Both sides have read the same. An inactive libmemdisc is in stage 0. -/
structure DiscAgree (d : Disc) (m : Option MemDisc) : Prop where
  stage : d.stage = m.elim 0 (·.stage)
  filter : d.filter = m.elim .none (·.filter)
  size : 3 ≤ d.stage → d.memSize = m.elim 0 (·.mallocSize)
  waits : d.waits = m.elim false (·.notifies)
  answers : d.waits = true → d.answers = m.elim 0 (·.reads)

end UgTrain
