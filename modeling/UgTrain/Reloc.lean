import UgTrain.BuildCaches
import UgTrain.Regions

/-!
# Relocation of static memory (`aslr.h`, `process_stack_end`)

`handleStatmemPie` adds the offset of the executable, `handleStatmemPic` the load addresses of the
libraries that were found since the last time, `processStackEnd` turns stack offsets into
addresses. All three go along the values outside of classes and pointer sections, and move an item
and the start of its cache.

* `Pass`: which items move, and how. The start of a cache moves with its first item: the dirty flag
  marks it until the end of the pass.
* An item without a cache that is to be moved is a null pointer followed.
-/

namespace UgTrain

open CLib

/-! ## One pass over the static values -/

/-- How an item moves, and the start of its cache; the new type of the item. -/
structure Move where
  addr : Ptr → Ptr
  offs : Ptr → Ptr
  type : VType

/-- How an item of a type moves, if it does, for the type of its entry and its own one. -/
abbrev Pass := VType → VType → Except Fault (Option Move)

/-- The start of a cache moves, but only once. -/
def moveCache (f : Ptr → Ptr) (cache : Option CacheRef) (caches : Caches) : Except Fault Caches :=
  match cache with
  | none => .error .nullPointer
  | some r => .ok (caches.modify r fun c =>
      if c.isDirty then c else { c with isDirty := true, offs := f c.offs })

section Pass

variable (p : Pass)

def Pass.relocEntry (en : CfgEntry) (caches : Caches) : Except Fault (CfgEntry × Caches) := do
  match ← p en.type en.type with
  | none => return (en, caches)
  | some m =>
    let caches ← moveCache m.offs en.cache caches
    return ({ en with addr := m.addr en.addr, type := m.type }, caches)

def Pass.relocCheck (en : CfgEntry) (chk : CheckEntry) (caches : Caches) :
    Except Fault (CheckEntry × Caches) := do
  match ← p en.type chk.type with
  | none => return (chk, caches)
  | some m =>
    let caches ← moveCache m.offs chk.cache caches
    return ({ chk with addr := m.addr chk.addr, type := m.type }, caches)

def Pass.relocChecks (en : CfgEntry) : List CheckEntry → Caches →
    Except Fault (List CheckEntry × Caches)
  | [], caches => .ok ([], caches)
  | chk :: chks, caches => do
    let (chk, caches) ← p.relocCheck en chk caches
    let (chks, caches) ← relocChecks en chks caches
    return (chk :: chks, caches)

/-- An entry and its checks. -/
def Pass.relocItems (en : CfgEntry) (caches : Caches) : Except Fault (CfgEntry × Caches) := do
  let (en', caches) ← p.relocEntry en caches
  match en.checks with
  | none => return (en', caches)
  | some chks =>
    let (chks, caches) ← p.relocChecks en chks caches
    return ({ en' with checks := some chks }, caches)

/-- An entry outside of classes and pointer sections. -/
def CfgEntry.isStatic (en : CfgEntry) : Bool := en.dynmem.isNone && en.ptrmem.isNone

def Pass.relocEntries : List CfgEntry → Caches → Except Fault (List CfgEntry × Caches)
  | [], caches => .ok ([], caches)
  | en :: cfg, caches => do
    let (en, caches) ← if en.isStatic then p.relocItems en caches else .ok (en, caches)
    let (cfg, caches) ← relocEntries cfg caches
    return (en :: cfg, caches)

end Pass

def clearDirty (c : CacheEntry) : CacheEntry := { c with isDirty := false }

/-! ## The executable -/

/-- Items that are neither on the stack nor in a library. -/
def piePass (codeOffs : Ptr) : Pass := fun _ type => .ok <|
  if type.onStack || type.lib.isSome then none
  else some ⟨(· + codeOffs), (· + codeOffs), type⟩

def handleStatmemPie (opt : Options) : Except Fault Options := do
  let (entries, caches) ← (piePass opt.codeOffs).relocEntries opt.entries opt.caches
  return { opt with
    entries := entries
    dumps := opt.dumps.map fun dit =>
      if dit.lib.isSome then dit else { dit with addr := dit.addr + opt.codeOffs }
    caches := Function.update caches .opt ((caches .opt).map clearDirty) }

/-! ## Libraries -/

/-- The library, if it was found and its items were not moved yet. -/
def newLib (libs : List LibEntry) (lib : Option Nat) : Option (Nat × LibEntry) :=
  match lib.bind fun l => (libs[l]?).map (l, ·) with
  | none => none
  | some (l, lib) => if lib.start = 0 ∨ lib.isLoaded then none else some (l, lib)

/-- Items of libraries. A check moves with the library of its entry, its cache with its own. -/
def picPass (libs : List LibEntry) : Pass := fun enType type =>
  match newLib libs type.lib with
  | none => .ok none
  | some (_, lib) =>
    match enType.lib.bind (libs[·]?) with
    | none => .error .nullPointer
    | some enLib => .ok (some ⟨(· + enLib.start), (· + lib.start), type⟩)

/-- The dump areas: the first one of a library marks it as loaded. -/
def relocDumps : List DumpEntry → List LibEntry → List DumpEntry × List LibEntry
  | [], libs => ([], libs)
  | dit :: dumps, libs =>
    match newLib libs dit.lib with
    | none =>
      let (dumps, libs) := relocDumps dumps libs
      (dit :: dumps, libs)
    | some (l, lib) =>
      let (dumps, libs) := relocDumps dumps (libs.set l { lib with isLoaded := true })
      ({ dit with addr := dit.addr + lib.start } :: dumps, libs)

/-- A library whose caches were moved is loaded. -/
def LibEntry.setLoaded (latePic : Bool) (cacheList : List CacheEntry) (lit : LibEntry) : LibEntry :=
  if cacheList.any (·.isDirty) then
    { lit with isLoaded := true, skipVal := lit.skipVal || latePic }
  else lit

def MemType.isLib : MemType → Bool
  | .lib _ => true
  | _ => false

def handleStatmemPic (opt : Options) (latePic : Bool) : Except Fault Options := do
  let (entries, caches) ← (picPass opt.libs).relocEntries opt.entries opt.caches
  let (dumps, libs) := relocDumps opt.dumps opt.libs
  return { opt with
    entries := entries
    dumps := dumps
    libs := libs.mapIdx fun l lit => lit.setLoaded latePic (caches (.lib l))
    caches := fun mem => if mem.isLib then (caches mem).map clearDirty else caches mem }

/-! ## The stack -/

/-- Items on the stack. They are static values afterwards. -/
def stackPass (stackEnd : Ptr) : Pass := fun _ type => .ok <|
  if type.onStack then some ⟨(stackEnd - ·), (stackEnd - ·), { type with onStack := false }⟩
  else none

def processStackEnd (opt : Options) : Except Fault Options :=
  if opt.valOnStack then do
    let (entries, caches) ← (stackPass opt.stackEnd).relocEntries opt.entries opt.caches
    return { opt with
      entries := entries
      caches := Function.update caches .stack ((caches .stack).map clearDirty) }
  else .ok opt

end UgTrain
