import UgTrain.ReadConfig

/-!
# The lines of the config (`read_config`)

`ConfigState.readConfig` reads the process name and then line by line: values, checks, classes,
pointer sections, macros and what is about the game and the adaption. Behind the last line it builds the
caches.

* A class and a section are not open at the same time; the lines between their start and their end are
  about them. Most other lines must stand outside.
* A macro may be substituted for ever: `n` is the number of substitutions for a line, and `none` is
  what takes more.
* A library name is a new string each time, with its own `id`.
-/

namespace UgTrain

open CLib

/-! ## Classes -/

/-- `parse_u32_value`. -/
def parseU32Value (fl : FloatLib) (line : Str) (start : Nat) : Except ReadError (U32 × Nat) := do
  let value ← parseValue fl [] .plain line start
  return (value.value.setWidth 32, value.start)

/-- `parse_pic_lib`. -/
def parsePicLib (line : Str) (start : Nat) : Str :=
  let lib := line.drop start
  if lib = exeLib ∨ ' ' ∈ lib ∨ '\t' ∈ lib then [] else lib

/-- `PARSE_DYNMEM_ESSENTIALS`. -/
def parseEssentials (fl : FloatLib) (id : Nat) (line : Str) (start : Nat) :
    Except ReadError DynMemEssentials := do
  let (memSize, start) ← parseU32Value fl line start
  let (codeAddr, start) ← parsePlainAddr line start
  let (stackOffs, start) ← parsePlainAddr line start
  return ⟨memSize.setWidth 64, codeAddr, codeAddr, stackOffs, some ⟨id, parsePicLib line start⟩⟩

/-- The step of a growth rule. -/
def parseStep (fl : FloatLib) (sizeMin sizeMax : U32) (line : Str) (start : Nat) :
    Except ReadError (GrowType × U32 × Nat) :=
  match (line.drop start).head? with
  | some '+' => do
    let (add, behind) ← parseU32Value fl line (start + 1)
    if add = 0 ∨ add > sizeMax - sizeMin then throw (.parse start)
    else return (.add, add, behind)
  | some '*' => do
    let (add, behind) ← parseU32Value fl line (start + 1)
    if sizeMin < 1 ∨ add ≤ 0 ∨ sizeMax < sizeMin then throw (.parse start)
    else return (.mul, add, behind)
  | _ => .error (.parse (before start))

/-- `parse_growing`. -/
def parseGrowing (fl : FloatLib) (id : Nat) (line : Str) (start : Nat) :
    Except ReadError GrowEntry := do
  let (sizeMin, maxStart) ← parseU32Value fl line start
  if sizeMin = 0 then throw (.parse (before start))
  else
    let (sizeMax, opStart) ← parseU32Value fl line maxStart
    if sizeMax ≤ sizeMin then throw (.parse (before start))
    else if line.length < opStart + 2 then throw (.parse (before opStart))
    else
      let (type, add, behind) ← parseStep fl sizeMin sizeMax line opStart
      let (codeAddr, behind) ← parsePlainAddr line behind
      let (stackOffs, behind) ← parsePlainAddr line behind
      return ⟨sizeMin.setWidth 64, sizeMax.setWidth 64, type, add, codeAddr, codeAddr, stackOffs,
        some ⟨id, parsePicLib line behind⟩⟩

/-- `parse_dynmem` of a class, without and with a constructor. -/
def DynMemEntry.new (name : Str) (es : DynMemEssentials) : DynMemEntry where
  toDynMemEssentials := es
  name := name
  consts := []
  grow := none
  cfgAct := []
  vMaddr := []
  vMsize := []
  numAlloc := 0
  numFreed := 0
  objIdx := 0

/-! ## Paths -/

/-- `cppbasename`. -/
def cppBasename (path : Str) : Str :=
  match rfind path '/' with
  | some pos => path.drop (pos + 1)
  | none => []

/-- `cppdirname`. -/
def cppDirname (path : Str) : Str :=
  match rfind path '/' with
  | some pos => path.take (pos + 1)
  | none => "./".toList

/-- `parse_proc_name`, with the place of `proc_name_err`. -/
def parseProcName (line : Str) : Except Nat Str :=
  if line = [] then .error 0
  else
    match line.findIdx? fun c => !(c.isAlphanum || ".-_ ".toList.contains c) with
    | some lidx => .error lidx
    | none => .ok line

/-! ## Lines -/

/-- The config that has been read up to a line. -/
structure ConfigState extends CfgReader where
  macros : Macros
  procName : Str
  gameCall : Str
  gamePath : Option Str
  gameBinpath : Str
  binpathLine : Nat
  gameParams : Str
  dynmemFile : Str
  adpScript : Str
  adpRequired : Bool
  adpReqLine : Nat
  useGbt : Bool
  preloadLib : Option Str
  /-- The number of library strings. -/
  numLibs : Nat

inductive ConfigError where
  /-- `proc_name_err`, with the place. -/
  | procName (lidx : Nat)
  /-- `cfg_lines->at(0)`. -/
  | noLine
  | line (lnr : Nat) (e : ReadError)
  /-- A class or a section has no end. -/
  | notClosed
  deriving DecidableEq, Repr

namespace ConfigState

/-- Behind the line of the process name. -/
def init (preloadLib : Option Str) (procName : Str) : ConfigState where
  toCfgReader := .init
  macros := []
  procName := procName
  gameCall := procName
  gamePath := none
  gameBinpath := []
  binpathLine := 0
  gameParams := []
  dynmemFile := "/tmp/memdisc_file".toList
  adpScript := []
  adpRequired := false
  adpReqLine := 0
  useGbt := false
  preloadLib := preloadLib
  numLibs := 0

/-- Lines of values and checks. -/
def withReader (s : ConfigState) (r : Except ReadError CfgReader) : Except ReadError ConfigState :=
  r.map fun c => { s with toCfgReader := c }

/-- A line that must stand outside of classes and sections. -/
def outside (s : ConfigState) (start : Nat) (r : Except ReadError ConfigState) :
    Except ReadError ConfigState :=
  if s.inDynmem.isSome ∨ s.inPtrmem.isSome then .error (.parse start) else r

def pushClass (s : ConfigState) (dm : DynMemEntry) : ConfigState :=
  { s with
    opt := { s.opt with dynmems := s.opt.dynmems ++ [dm] }
    inDynmem := some s.opt.dynmems.length }

def modifyClass (s : ConfigState) (d : Nat) (f : DynMemEntry → DynMemEntry) : ConfigState :=
  { s with
    opt := { s.opt with dynmems := s.opt.dynmems.modify d f }
    numLibs := s.numLibs + 1 }

/-- `dynmemstart`. -/
def readDynmemStart (fl : FloatLib) (s : ConfigState) (line : Str) (start : Nat) :
    Except ReadError ConfigState :=
  s.outside start do
    let (name, behind) ← nameAt line start
    let es ← parseEssentials fl s.numLibs line behind
    return { s.pushClass (.new name es) with numLibs := s.numLibs + 1 }

/-- `dynmemconst`. -/
def readDynmemConst (fl : FloatLib) (s : ConfigState) (line : Str) (start : Nat) :
    Except ReadError ConfigState :=
  match s.inDynmem with
  | none => .error (.parse start)
  | some d => do
    let es ← parseEssentials fl s.numLibs line start
    return s.modifyClass d fun dm => { dm with consts := dm.consts ++ [es] }

/-- The class of a growth rule: one without a constructor may start here. -/
def growClass (s : ConfigState) (line : Str) (start : Nat) : Except ReadError (ConfigState × Nat) :=
  match s.inDynmem with
  | some _ => .ok (s, start)
  | none => do
    let (name, behind) ← nameAt line start
    return (s.pushClass (.new name ⟨0, 0, 0, 0, none⟩), behind)

/-- `dynmemgrow`. -/
def readDynmemGrow (fl : FloatLib) (s : ConfigState) (line : Str) (start : Nat) :
    Except ReadError ConfigState :=
  if s.inPtrmem.isSome then .error (.parse start)
  else do
    let (s, start) ← s.growClass line start
    match s.inDynmem with
    | none => .error (.parse start)
    | some d =>
      match s.opt.dynmems[d]? with
      | none => .error (.parse start)
      | some dm =>
        if dm.grow.isSome then .error (.parse start)
        else do
          let grow ← parseGrowing fl s.numLibs line start
          return s.modifyClass d fun dm => { dm with vMsize := [], grow := some grow }

/-- `ptrmemstart`: the section before may be open. -/
def readPtrmemStart (fl : FloatLib) (s : ConfigState) (line : Str) (start : Nat) :
    Except ReadError ConfigState :=
  if s.inDynmem.isSome then .error (.parse start)
  else do
    let (name, start) ← nameAt line start
    let (memSize, _) ← parseU32Value fl line start
    return { s with
      opt := { s.opt with
        ptrmems := s.opt.ptrmems ++ [⟨name, memSize.setWidth 64, [], [], none, [], []⟩] }
      inPtrmem := some s.opt.ptrmems.length }

/-- `dump`. -/
def readDump (fl : FloatLib) (s : ConfigState) (line : Str) (start : Nat) :
    Except ReadError ConfigState := do
  let (addr, start) ← parsePlainAddr line start
  let (memSize, start) ← parseU32Value fl line start
  let name := parsePicLib line start
  if name = [] then
    return { s with opt := { s.opt with dumps := s.opt.dumps ++ [⟨addr, memSize.setWidth 64, none⟩] } }
  else
    let (libs, l) := CfgReader.findAddLib s.opt.libs name
    return { s with opt := { s.opt with
      libs := libs
      dumps := s.opt.dumps ++ [⟨addr, memSize.setWidth 64, some l⟩] } }

/-- A name, with spaces in it if they are allowed. -/
def pathAt (allowSpaces : Bool) (line : Str) (start : Nat) : Except ReadError (Str × Nat) :=
  (firstName allowSpaces line start).mapError NameError.read

/-- `adapt_script`, `adapt_required`, `dynmemfile`, `game_path`, `game_call`, `game_binpath`,
`game_params`, `use_gbt` and `no_preload`. -/
def readGame (fl : FloatLib) (cfgPath : Str) (lnr : Nat) (s : ConfigState) (type : NameType)
    (line : Str) (start : Nat) : Except ReadError ConfigState :=
  match type with
  | .dynmemFile => do
    let (name, _) ← pathAt true line start
    return { s with dynmemFile := name }
  | .adpScript => do
    let (name, behind) ← nameAt line start
    if behind < line.length - 1 then throw (.parse behind)
    else return { s with adpScript := cppDirname cfgPath ++ name }
  | .adpReq => do
    let (value, _) ← parseU32Value fl line start
    return { s with adpRequired := s.adpRequired || value != 0, adpReqLine := lnr }
  | .gamePath => do
    let (name, behind) ← pathAt true line start
    if cppBasename name ≠ s.gameCall then throw (.parse behind)
    else return { s with gamePath := some name }
  | .gameCall => do
    let (name, _) ← nameAt line start
    return { s with gameCall := name }
  | .gameBinpath => do
    let (name, behind) ← pathAt true line start
    if cppBasename name ≠ s.procName then throw (.parse behind)
    else return { s with gameBinpath := name, binpathLine := lnr }
  | .gameParams =>
    if line.length < start then .error .outOfRange
    else .ok { s with gameParams := line.drop start }
  | .useGbt => .ok { s with useGbt := true }
  | .noPreload => .ok { s with preloadLib := s.preloadLib.map fun _ => "-".toList }
  | _ => .ok s

/-- A line from behind its first name on. -/
def readNamed (fl : FloatLib) (cfgPath : Str) (lnr : Nat) (s : ConfigState) (type : NameType)
    (name line : Str) (start : Nat) : Except ReadError ConfigState :=
  match type with
  | .checkObj => s.withReader (s.toCfgReader.readCheck fl true line start)
  | .check => s.withReader (s.toCfgReader.readCheck fl false line start)
  | .dynmemStart => s.readDynmemStart fl line start
  | .dynmemConst => s.readDynmemConst fl line start
  | .dynmemGrow => s.readDynmemGrow fl line start
  | .dynmemEnd =>
    if s.inDynmem.isSome then .ok { s with inDynmem := none } else .error (.parse start)
  | .ptrmemStart => s.readPtrmemStart fl line start
  | .ptrmemEnd =>
    if s.inPtrmem.isSome then .ok { s with inPtrmem := none } else .error (.parse start)
  | .define => s.outside start do
    let macros ← (parseDefine s.macros line start).mapError NameError.read
    return { s with macros := macros }
  | .dump => s.outside start (s.readDump fl line start)
  | .regular => s.withReader (CfgReader.readValue fl s.toCfgReader name line start)
  | type => s.outside start (s.readGame fl cfgPath lnr type line start)

/-- A line. -/
def readLine (fl : FloatLib) (n : Nat) (cfgPath : Str) (lnr : Nat) (s : ConfigState) (line : Str) :
    Option (Except ReadError ConfigState) :=
  if line = [] ∨ line.head? = some '#' then some (.ok s)
  else
    (parseValueName s.macros false true n line 0).map fun r => do
      let v ← r.mapError NameError.read
      s.readNamed fl cfgPath lnr (v.nameType.getD .regular) v.ret v.line v.start

/-- The loop of `read_config`. -/
def readLines (fl : FloatLib) (n : Nat) (cfgPath : Str) (lnr : Nat) (s : ConfigState) :
    List Str → Option (Except ConfigError ConfigState)
  | [] => some (.ok s)
  | line :: lines =>
    match readLine fl n cfgPath lnr s line with
    | none => none
    | some (.error e) => some (.error (.line lnr e))
    | some (.ok s) => readLines fl n cfgPath (lnr + 1) s lines

/-- The end of `read_config`. -/
def finish (chunk : Nat) (s : ConfigState) : Except ConfigError ConfigState :=
  if s.inDynmem.isSome ∨ s.inPtrmem.isSome then .error .notClosed
  else .ok { s with macros := [], opt := buildCaches chunk s.opt }

/-- `read_config`. -/
def readConfig (fl : FloatLib) (chunk n : Nat) (cfgPath : Str) (preloadLib : Option Str) :
    List Str → Option (Except ConfigError ConfigState)
  | [] => some (.error .noLine)
  | line :: lines =>
    match parseProcName line with
    | .error lidx => some (.error (.procName lidx))
    | .ok procName =>
      (readLines fl n cfgPath 1 (init preloadLib procName) lines).map (· >>= finish chunk)

end ConfigState

end UgTrain
