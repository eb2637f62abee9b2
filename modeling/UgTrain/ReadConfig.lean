import UgTrain.LineParser

/-!
# Lines of values and checks (`read_config`)

`readValue` is the line of a value, `readCheck` the line of a check of the value before it, both from
behind the name of the line on. `CfgReader` is the config that has been read up to the line.

* The class or the pointer section whose lines are read is `inDynmem`, `inPtrmem`.
* `cfg_en` and `chk_en` are used for all lines. What a line does not set is not used, apart from the
  address of a check of the object number: this one keeps the address of the check before.
* The starts of the cache lists (`FIND_CACHE_START`) are in `findCacheStart`.
-/

namespace UgTrain

open CLib

structure CfgReader where
  opt : Options
  cfgAct : List Nat
  cfgpMap : Nat → List Nat
  heapChecks : Bool
  inDynmem : Option Nat
  inPtrmem : Option Nat
  chkAddr : Ptr

/-- Before the first line. `chk_en.addr` is not initialized in the source, the 0 stands for it: a check of
the object number in front of any check of an address has it. -/
def CfgReader.init : CfgReader where
  opt := ⟨⟨[], [], []⟩, [], [], fun _ => [], false, 0, 0⟩
  cfgAct := []
  cfgpMap := fun _ => []
  heapChecks := false
  inDynmem := none
  inPtrmem := none
  chkAddr := 0

/-- `struct type` before the line is parsed. -/
def VType.zero : VType := ⟨none, false, false, false, false, false, 0⟩

namespace CfgReader

/-- `FIND_ADD_LIB_ENTRY`. -/
def findAddLib (libs : List LibEntry) (name : Str) : List LibEntry × Nat :=
  match libs.findIdx? (·.name = name) with
  | some l => (libs, l)
  | none => (libs ++ [⟨name, 0, false, false⟩], libs.length)

/-- The region of an address: only static memory is on the stack or in a library. -/
def setRegion (s : CfgReader) (a : LineAddr) : Except ReadError (CfgReader × VType) :=
  if a.onStack then
    if s.inDynmem.isSome ∨ s.inPtrmem.isSome then .error (.parse a.start)
    else .ok ({ s with opt := { s.opt with valOnStack := true } }, { VType.zero with onStack := true })
  else
    match a.libName.filter (· ≠ []) with
    | none => .ok (s, .zero)
    | some name =>
      if s.inDynmem.isSome ∨ s.inPtrmem.isSome then .error (.parse a.start)
      else
        let (libs, l) := findAddLib s.opt.libs name
        .ok ({ s with opt := { s.opt with libs := libs } }, { VType.zero with lib := some l })

/-! ## Values -/

/-- The type of a text or a pointer, and the section that a pointer is for. -/
def setTarget (s : CfgReader) (type : VType) (line : Str) (start : Nat) :
    Except ReadError (CfgReader × VType × Option Nat × Nat) :=
  if type.isCstrp ∨ type.isCstr then .ok (s, { type with size := 64 }, none, start)
  else if type.size ≠ 0 then .ok (s, type, none, start)
  else do
    let (name, start) ← nameAt line start
    match findPtrMem s.opt.toCfgMem name with
    | none => .error (.parse (start - 1))
    | some p =>
      let target (pm : PtrMemEntry) : PtrMemEntry :=
        match s.inDynmem with
        | some d => { pm with dynmem := some d }
        | none => { pm with vState := pm.vState ++ [.init], vOffs := pm.vOffs ++ [0] }
      .ok ({ s with opt := { s.opt with ptrmems := s.opt.ptrmems.modify p target } },
        { type with size := 64 }, some p, start)

/-- The buffer for the text of a static value. -/
def textBuf (s : CfgReader) (type : VType) : Option (List UInt8) :=
  if (type.isCstrp ∨ type.isCstr) ∧ s.inDynmem = none ∧ s.inPtrmem = none then
    some (List.replicate (maxCstr + 1) 0)
  else none

/-- The entry of a value line up to its wish value, and the place behind that. -/
def parseEntry (fl : FloatLib) (s : CfgReader) (name line : Str) (start : Nat) :
    Except ReadError (CfgReader × CfgEntry × Nat) := do
  let a ← parseAddress s.opt .value line start
  let (s, type) ← s.setRegion a
  let (type, start) ← parseDataType line a.start type
  let (s, type, ptrtgt, start) ← s.setTarget type line start
  let v ← parseValue fl s.opt.entries (.wish type) line start
  let (dynval, cfgRef, cfgRefAdd) := v.dynval.getD (.off, none, 0)
  -- Text can only be watched.
  if (type.isCstrp ∨ type.isCstr) ∧ dynval ≠ .watch then .error (.parse (before v.start))
  else
    let valAddr := if dynval = .addr then v.value else 0
    .ok (s, ⟨name, a.addr, type, v.check, dynval, valAddr, cfgRef, cfgRefAdd, none, s.inDynmem, none, 0,
      s.inPtrmem, ptrtgt, ⟨v.value, 0, s.textBuf type, false, [], [], []⟩⟩, v.start)

def pushEntry (s : CfgReader) (en : CfgEntry) : CfgReader :=
  { s with opt := { s.opt with
    entries := s.opt.entries ++ [en]
    ptrmems := s.inPtrmem.elim s.opt.ptrmems fun p =>
      s.opt.ptrmems.modify p fun pm => { pm with cfg := pm.cfg ++ [s.opt.entries.length] } } }

/-- The entry goes to the lists of activated entries. -/
def activate (s : CfgReader) (e : Nat) : CfgReader :=
  match s.inPtrmem with
  | some p =>
    { s with opt := { s.opt with
      ptrmems := s.opt.ptrmems.modify p fun pm => { pm with cfgAct := pm.cfgAct ++ [e] } } }
  | none =>
    { s with
      cfgAct := s.cfgAct ++ [e]
      opt := { s.opt with
        dynmems := s.inDynmem.elim s.opt.dynmems fun d =>
          s.opt.dynmems.modify d fun dm => { dm with cfgAct := dm.cfgAct ++ [e] } } }

def bindKey (e : Nat) (s : CfgReader) (ch : Char) : CfgReader :=
  { s with cfgpMap := Function.update s.cfgpMap ch.toNat (s.cfgpMap ch.toNat ++ [e]) }

def setWatch (s : CfgReader) (e : Nat) : CfgReader :=
  { s with opt := { s.opt with
    entries := s.opt.entries.modify e fun en => { en with dynval := .watch } } }

/-- The activation state. -/
def setState (s : CfgReader) (e : Nat) : Option Char → Except ReadError CfgReader
  | none => .error .outOfRange
  | some 'a' => .ok (s.activate e)
  | some 'w' => .ok ((s.setWatch e).activate e)
  | some _ => .ok s

/-- The key bindings and the activation state of the entry `e`. -/
def readKeys (s : CfgReader) (e : Nat) (line : Str) (start : Nat) : Except ReadError CfgReader := do
  let (keys, start) ← parseKeyBindings line start
  if line.length < start then .error (.parse (before start))
  else (keys.foldl (bindKey e) s).setState e (line.drop start).head?

/-- The line of a value. -/
def readValue (fl : FloatLib) (s : CfgReader) (name line : Str) (start : Nat) :
    Except ReadError CfgReader := do
  let (s, en, start) ← parseEntry fl s name line start
  let e := s.opt.entries.length
  if en.dynval = .watch ∨ en.ptrtgt.isSome then .ok ((s.pushEntry en).activate e)
  else (s.pushEntry en).readKeys e line start

/-! ## Checks -/

/-- Whether the object number is checked, or which address. -/
def parseCheckAddr (s : CfgReader) (line : Str) (start : Nat) : Except ReadError (Bool × LineAddr) := do
  let (objNum, start) ← if s.inDynmem.isSome then parseObjNumChk line start else .ok (false, start)
  if objNum then .ok (true, ⟨s.chkAddr, start, false, none, none⟩)
  else do
    let a ← parseAddress s.opt .check line start
    return (false, a)

/-- The next `n` values of a check, the first one of them with the number `i`. -/
def parseCheckVals (fl : FloatLib) (cfg : List CfgEntry) (type : VType) (line : Str) :
    Nat → Nat → Nat → Except ReadError (List LineValue)
  | 0, _, _ => .ok []
  | n + 1, i, start => do
    let v ← parseValue fl cfg (.check type i) line start
    let vs ← parseCheckVals fl cfg type line n (i + 1) v.start
    return v :: vs

/-- A check of the heap is one of both of its ends. -/
def heapCheck (chk : CheckEntry) : List CheckEntry :=
  if chk.isHeapchk then
    [{ chk with check := chk.check.set 1 .gt }, { chk with check := (chk.check.set 0 .lt).set 1 .fin }]
  else [chk]

/-- `FIND_CACHE_START_CHECK` needs the class or the section of the entry. -/
def hasPlace (s : CfgReader) (en : CfgEntry) (cfgRef : Option Nat) : Bool :=
  cfgRef.isSome || ((s.inDynmem.isNone || en.dynmem.isSome) && (s.inPtrmem.isNone || en.ptrmem.isSome))

/-- The line of a check. -/
def readCheck (fl : FloatLib) (s : CfgReader) (objcheck : Bool) (line : Str) (start : Nat) :
    Except ReadError CfgReader :=
  if objcheck ∧ s.inDynmem = none then .error (.parse start)
  else
    match s.opt.entries.getLast? with
    | none => .error .undefined
    | some en => do
      let (objNum, a) ← s.parseCheckAddr line start
      let (s, type) ← s.setRegion a
      let (type, start) ← parseDataType line a.start type
      let type := if type.size = 0 then { type with size := 64 } else type
      let vals ← parseCheckVals fl s.opt.entries type line maxChkVals 0 start
      if s.hasPlace en a.cfgRef = false then .error .undefined
      else
        let chk : CheckEntry := ⟨a.addr, a.cfgRef, objcheck, vals.any (·.isHeapchk), objNum,
          en.dynmem.isSome && s.inDynmem.isNone || en.ptrmem.isSome && s.inPtrmem.isNone, type,
          vals.map (·.check) ++ [.fin], vals.map (·.value) ++ [0], none, 0⟩
        let en := { en with checks := some (en.checks.getD [] ++ heapCheck chk) }
        .ok { s with
          opt := { s.opt with entries := s.opt.entries.dropLast ++ [en] }
          heapChecks := s.heapChecks || vals.any (·.isHeapchk)
          chkAddr := a.addr }

end CfgReader

end UgTrain
