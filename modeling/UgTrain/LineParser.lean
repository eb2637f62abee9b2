import UgTrain.BuildCaches
import UgTrain.CLib.Strto
import UgTrain.Macros
import UgTrain.NumType

/-!
# The parts of a config line (`cfgparser.cpp`)

The functions that `read_config` calls for the parts of a line: an address, a data type, a value, key
bindings. Each takes the line and the place where its part starts, and gives the place behind it.

* A place is a `u32` in the code and a number here: a line has less than 4 GiB.
* The size of a type is an `i32` in the code; here it is the number of its 32 bits.
* `strtof` and `strtod` are those of `FloatLib`.
-/

namespace UgTrain

open CLib

inductive ReadError where
  /-- `cfg_parse_err`, with the place in the line. -/
  | parse (lidx : Nat)
  /-- `std::out_of_range`. -/
  | outOfRange
  /-- `back()` of an empty list, or a null pointer. -/
  | undefined
  deriving DecidableEq, Repr

def NameError.read : NameError → ReadError
  | .parse lidx => .parse lidx
  | .outOfRange => .outOfRange

/-- `--lidx`. -/
def before (lidx : Nat) : Nat := (lidx + 2 ^ 32 - 1) % 2 ^ 32

/-- `parse_value_name` without `name_type`, up to a blank. -/
def nameAt (line : Str) (start : Nat) : Except ReadError (Str × Nat) :=
  (firstName false line start).mapError NameError.read

/-- `find_cfg_en`: the last entry with that name. -/
def findCfgEn (cfg : List CfgEntry) (name : Str) : Option Nat :=
  (List.range cfg.length).reverse.find? fun e => (cfg[e]?).any (·.name = name)

/-- `find_ptr_mem`: the pointer section of an entry, by its name. -/
def findPtrMem (cfg : CfgMem) (name : Str) : Option Nat :=
  (cfg.entries.filterMap (·.ptrmem)).find? fun p => (cfg.ptrmems[p]?).any (·.name = name)

/-! ## Addresses -/

/-- The entry that an address is parsed for. -/
inductive AddrUse where
  /-- There is none. -/
  | plain
  | value
  /-- A check of the last entry. -/
  | check
  deriving DecidableEq, Repr

/-- What `parse_address` gives, and what it notes in the entry. -/
structure LineAddr where
  addr : Ptr
  start : Nat
  onStack : Bool
  libName : Option Str
  cfgRef : Option Nat
  deriving DecidableEq, Repr

/-- The digits up to a blank, and where they end. The last character of the line is not looked at. -/
def scanHexAddr (lidx : Nat) (ds : Str) : Str → Except ReadError (Str × Nat)
  | [] => .ok (ds, lidx)
  | [c] => .ok (ds ++ [c], lidx)
  | c :: cs =>
    if c = ' ' then .ok (ds, lidx)
    else if isXDigit c then scanHexAddr (lidx + 1) (ds ++ [c]) cs
    else .error (.parse lidx)

/-- `parse_address` behind `0x`. -/
def parseHexAddr (line : Str) (start : Nat) : Except ReadError (Ptr × Nat) := do
  let (ds, lidx) ← scanHexAddr start [] (line.drop start)
  return (strtoul 16 ds, lidx + 1)

/-- `parse_address` without an entry: any name is an error. -/
def parsePlainAddr (line : Str) (start : Nat) : Except ReadError (Ptr × Nat) :=
  if line.length < start + 2 then .error (.parse (before start))
  else if (line.drop start).take 2 = "0x".toList then parseHexAddr line (start + 2)
  else do
    let (name, _) ← nameAt line start
    throw (.parse (if name = "addr".toList then before start else start))

/-- The number behind the sign of a relative address. -/
def relOffs (text : Str) (lidx : Nat) : Except ReadError Ptr :=
  if text.take 2 = "0x".toList then
    if (text.drop 2).all isXDigit then .ok (strtoul 16 (text.drop 2)) else .error (.parse (lidx + 2))
  else if text.all Char.isDigit then .ok (strtoul 10 text) else .error (.parse lidx)

/-- `PARSE_REL_ADDR` behind the keyword; `ret` is the base address. -/
def parseRel (text : Str) (lidx : Nat) (ret : Except ReadError Ptr) : Except ReadError Ptr :=
  match text with
  | [] => .error .outOfRange
  | sign :: text =>
    if sign ≠ '-' ∧ sign ≠ '+' then .error (.parse lidx)
    else do
      let ret ← ret
      let rel ← relOffs text (lidx + 1)
      if rel = 0 then .error (.parse (lidx + 1))
      else .ok (if sign = '-' then ret - rel else ret + rel)

/-- `get_prev_cfg_en_addr`, `get_cfg_en_addr`: the region of an entry is taken over. -/
def takeRegion (libs : List LibEntry) (type : VType) (addr : Ptr) (start : Nat) : LineAddr where
  addr := addr
  start := start
  onStack := type.onStack
  libName := if type.onStack then none else type.lib.bind fun l => (libs[l]?).map (·.name)
  cfgRef := none

/-- One round of `parse_address`; `again` is what comes behind "addr". -/
def addrRound (opt : Options) (use : AddrUse) (useRefaddr : Bool) (line : Str) (start : Nat)
    (again : Nat → Except ReadError LineAddr) : Except ReadError LineAddr :=
  if line.length < start + 2 then .error (.parse (before start))
  else if (line.drop start).take 2 = "0x".toList then do
    let (addr, start) ← parseHexAddr line (start + 2)
    return ⟨addr, start, false, none, none⟩
  else do
    let (name, behind) ← nameAt line start
    if name = "addr".toList then
      if useRefaddr ∨ use ≠ .check then .error (.parse (before start)) else again behind
    else if name = "stack".toList then
      if use = .plain then .error (.parse start)
      else do
        let (addr, behind) ← parsePlainAddr line behind
        return ⟨addr, behind, true, none, none⟩
    else if name = "lib".toList then
      if use = .plain then .error (.parse start)
      else do
        let (lib, behind) ← nameAt line behind
        let (addr, behind) ← parsePlainAddr line behind
        return ⟨addr, behind, false, some lib, none⟩
    else if name.take 4 = "prev".toList then
      if use ≠ .value then .error (.parse start)
      else
        match opt.entries.getLast? with
        | none => do
          let addr ← parseRel (name.drop 4) (start + 4) (.error (.parse start))
          return ⟨addr, behind, false, none, none⟩
        | some prev => do
          let addr ← parseRel (name.drop 4) (start + 4) (.ok prev.addr)
          return takeRegion opt.libs prev.type addr behind
    else if use ≠ .check then .error (.parse start)
    else
      match opt.entries.getLast? with
      | none => .error .undefined
      | some en =>
        if name.take 4 = "this".toList then
          if name.drop 4 = [] then .ok (takeRegion opt.libs en.type en.addr behind)
          else do
            let addr ← parseRel (name.drop 4) (start + 4) (.ok en.addr)
            return takeRegion opt.libs en.type addr behind
        else
          match findCfgEn opt.entries name with
          | none => .error (.parse start)
          | some e =>
            -- A check comes before its entry, so that it takes the address of the entry.
            if e + 1 = opt.entries.length then .ok (takeRegion opt.libs en.type en.addr behind)
            else if useRefaddr then
              .ok (takeRegion opt.libs (opt.entries.getD e en).type (opt.entries.getD e en).addr behind)
            else .ok ⟨0, behind, false, none, some e⟩

/-- `parse_address`. -/
def parseAddress (opt : Options) (use : AddrUse) (line : Str) (start : Nat) :
    Except ReadError LineAddr :=
  addrRound opt use false line start fun behind =>
    addrRound opt use true line behind fun _ => .error (.parse (before behind))

/-- `parse_obj_num_chk`: whether the object number is checked. -/
def parseObjNumChk (line : Str) (start : Nat) : Except ReadError (Bool × Nat) :=
  if line.length < start + 4 then .error (.parse (before start))
  else if (line.drop start).take 4 = "obj ".toList then .ok (true, start + 4)
  else .ok (false, start)

/-! ## Data types -/

/-- The digits up to a blank, if there is one, and where they end. -/
def scanWidth (lidx : Nat) (ds : Str) : Str → Except ReadError (Option Str × Nat)
  | [] => .ok (none, lidx)
  | c :: cs =>
    if c = ' ' then .ok (some ds, lidx)
    else if c.isDigit then scanWidth (lidx + 1) (ds ++ [c]) cs
    else .error (.parse lidx)

/-- The width of a number. -/
def parseWidth (type : VType) (line : Str) (start : Nat) : Except ReadError (VType × Nat) := do
  match ← scanWidth start [] (line.drop start) with
  | (none, lidx) => return ({ type with size := 32 }, lidx + 1)
  | (some ds, lidx) =>
    let size := (atoi ds).toNat
    if type.isFloat ∧ size ≠ 32 ∧ size ≠ 64 then throw (.parse lidx)
    else return ({ type with size := size }, lidx + 1)

/-- `parse_data_type`. -/
def parseDataType (line : Str) (start : Nat) (type : VType) : Except ReadError (VType × Nat) :=
  if line.length < start + 2 then .error (.parse (before start))
  else
    match (line.drop start).head? with
    | some 'u' => parseWidth { type with isSigned := false, isFloat := false } line (start + 1)
    | some 'i' => parseWidth { type with isSigned := true, isFloat := false } line (start + 1)
    | some 'f' => parseWidth { type with isSigned := true, isFloat := true } line (start + 1)
    | some 'p' => .ok ({ type with size := 0 }, start + 2)
    | some 'c' =>
      if line.length < start + 8 then .error (.parse (before start))
      else if (line.drop start).take 5 = "cstrp".toList then
        .ok ({ type with isCstrp := true, size := 0 }, start + 6)
      else if (line.drop start).take 4 = "cstr".toList then
        .ok ({ type with isCstr := true, size := 64 }, start + 5)
      else .error (.parse (before start))
    | _ => .error (.parse (before start))

/-! ## Values -/

structure FloatLib where
  strtof : Str → BitVec 32
  strtod : Str → BitVec 64

/-- What a value is parsed for. -/
inductive ValueUse where
  /-- The wish value of an entry. -/
  | wish (type : VType)
  /-- A value of a check. -/
  | check (type : VType) (i : Nat)
  /-- A number of a line without a type. -/
  | plain
  deriving DecidableEq, Repr

def ValueUse.type : ValueUse → VType
  | .wish type => type
  | .check type _ => type
  | .plain => ⟨none, false, false, false, false, false, 32⟩

def ValueUse.isWish : ValueUse → Bool
  | .wish _ => true
  | _ => false

/-- What `parse_value` gives, and what it notes in the entry. -/
structure LineValue where
  value : Value
  start : Nat
  check : Check
  isHeapchk : Bool
  /-- What a dynamic wish value is, with the reference and what is to be added to it. -/
  dynval : Option (DynVal × Option Nat × BitVec 64)
  deriving DecidableEq, Repr

/-- The comparison of a value. -/
inductive Compare where
  /-- There is no value. -/
  | fin
  | heap
  | value (check : Check) (start : Nat)
  deriving DecidableEq, Repr

/-- The beginning of `parse_value`: the comparison, and where the value starts. -/
def parseCompare (use : ValueUse) (line : Str) (start : Nat) : Except ReadError Compare :=
  let text := (line.drop start).take 2
  match use with
  | .plain => .ok (.value .off start)
  | .wish _ =>
    if line.length < start + 2 then .error (.parse (before start))
    else if text = "l ".toList then .ok (.value .lt (start + 2))
    else if text = "g ".toList then .ok (.value .gt (start + 2))
    else if text = "e ".toList then .error (.parse start)
    else .ok (.value .off start)
  | .check _ i =>
    if line.length < start + 2 then if i = 0 then .error (.parse (before start)) else .ok .fin
    else if text = "l ".toList then .ok (.value .lt (start + 2))
    else if text = "g ".toList then .ok (.value .gt (start + 2))
    else if text = "e ".toList then
      if i = 0 ∧ line.drop (start + 2) = "heap".toList then .ok .heap
      else .ok (.value .eq (start + 2))
    else .error (.parse (before start))

/-- The loop of `parse_value`: the place behind the value, and whether it is a name. `neg` is
whether the value starts with `-`: then nothing is checked. -/
def scanValue (use : ValueUse) (hex neg : Bool) (lidx : Nat) (dynval : Bool) :
    Str → Except ReadError (Nat × Bool)
  | [] => .ok (lidx, dynval)
  | c :: cs =>
    if c = ' ' then .ok (lidx, dynval)
    else if hex then
      if isXDigit c then scanValue use hex neg (lidx + 1) dynval cs else .error (.parse lidx)
    else if c.isDigit ∨ neg ∨ use.type.isFloat ∧ c = '.' then scanValue use hex neg (lidx + 1) dynval cs
    else if use.isWish ∧ (c.isAlpha ∨ c = '-' ∨ c = '+') then
      scanValue use hex neg (lidx + 1) true cs
    else .error (.parse lidx)

/-- `rfind`. -/
def rfind (s : Str) (c : Char) : Option Nat :=
  (List.range s.length).reverse.find? fun i => s[i]? = some c

/-- A reference: the entry, and what is to be added to its value. -/
def parseCfgRef (cfg : List CfgEntry) (name : Str) : Option (Nat × BitVec 64) :=
  match findCfgEn cfg name with
  | some e => some (e, 0)
  | none =>
    match (rfind name '+').or (rfind name '-') with
    | none => none
    | some op => (findCfgEn cfg (name.take op)).map (·, strtol 10 (name.drop op))

/-- A dynamic wish value, with its value. -/
def parseDynVal (cfg : List CfgEntry) (name : Str) :
    Option ((DynVal × Option Nat × BitVec 64) × Value) :=
  if name = "max".toList then some ((.max, none, 0), 0)
  else if name = "min".toList then some ((.min, none, 0), 0)
  else if name.take 4 = "va0x".toList then
    (scanPtr (name.drop 2)).map fun (addr, _) => ((.addr, none, 0), addr)
  else if name = "watch".toList then some ((.watch, none, 0), 0)
  else if name = "once".toList then some ((.ptrOnce, none, 0), 0)
  else if name = "always".toList then some ((.ptrAlways, none, 0), 0)
  else (parseCfgRef cfg name).map fun (e, add) => ((.addr, some e, add), 0)

/-- The number as the member of the union that the type selects. -/
def parseNumber (fl : FloatLib) (type : VType) (base : Nat) (text : Str) : Value :=
  if type.isFloat then
    if type.size = 32 then Value.store 32 0 ((fl.strtof text).setWidth 64) else fl.strtod text
  else
    Value.store (if type.size ∈ [64, 32, 16] then type.size else 8) 0
      (if type.isSigned then strtol base text else strtoul base text)

/-- `parse_value` behind the comparison. -/
def parseValueAt (fl : FloatLib) (cfg : List CfgEntry) (use : ValueUse) (check : Check) (line : Str)
    (start : Nat) : Except ReadError LineValue :=
  if line.length < start then .error .outOfRange
  else do
    let hex := (line.drop start).take 2 = "0x".toList
    let start := if hex then start + 2 else start
    let (lidx, dynval) ← scanValue use hex ((line.drop start).head? = some '-') start false (line.drop start)
    let text := (line.drop start).take (lidx - start)
    if dynval then
      match parseDynVal cfg text with
      | none => .error (.parse lidx)
      | some (dynval, value) => .ok ⟨value, lidx + 1, check, false, some dynval⟩
    else
      .ok ⟨parseNumber fl use.type (if hex then 16 else 10) text, lidx + 1, check, false, none⟩

/-- `parse_value`. -/
def parseValue (fl : FloatLib) (cfg : List CfgEntry) (use : ValueUse) (line : Str) (start : Nat) :
    Except ReadError LineValue := do
  match ← parseCompare use line start with
  | .fin => return ⟨0, start, .fin, false, none⟩
  | .heap => return ⟨0, line.length + 1, .eq, true, none⟩
  | .value check start => parseValueAt fl cfg use check line start

/-! ## Key bindings -/

/-- The keys with a separator behind them, and the place behind the last one of these: a key at the
end of the line is not among them. -/
def scanKeys (line : Str) (start lidx : Nat) (keys : List Char) :
    Str → Except ReadError (List Char × Nat)
  | [] => .ok (keys, start)
  | c :: cs =>
    if c = ',' ∨ c = ' ' then
      if lidx = start + 1 then
        match (line.drop start).head? with
        | none => .error .outOfRange
        | some ch =>
          if c = ' ' then .ok (keys ++ [ch], lidx + 1)
          else scanKeys line (lidx + 1) (lidx + 1) (keys ++ [ch]) cs
      else .error (.parse lidx)
    else if c.isAlphanum then scanKeys line start (lidx + 1) keys cs
    else .error (.parse lidx)

/-- `parse_key_bindings`: the keys of the entry. -/
def parseKeyBindings (line : Str) (start : Nat) : Except ReadError (List Char × Nat) :=
  scanKeys line start start [] (line.drop start)

end UgTrain
