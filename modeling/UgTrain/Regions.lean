import UgTrain.CfgEntry

/-!
# Memory regions of the game (`maps.c`, `aslr.h`)

The start of a library in the list of regions: `findLibRegion` looks for one library by the name of
its file, `findLibRegions` sets the load address of every library of the config that is not known
yet.
-/

namespace UgTrain

inductive RegionType where
  | misc
  | code
  | exe
  | heap
  | stack
  deriving DecidableEq, Repr, Inhabited

/-- `struct region`, as far as it is read. -/
structure Region where
  start : Ptr
  size : SizeT
  type : RegionType
  exec : Bool
  filePath : Str
  deriving DecidableEq, Repr, Inhabited

def basename (path : Str) : Str := (path.reverse.takeWhile (· ≠ '/')).reverse

/-- `find_lib_region`: the start of the library, or 0. -/
def findLibRegion (rlist : List Region) (lib : Str) : Ptr :=
  match rlist.find? fun it => it.exec && it.type ≠ .exe && basename it.filePath = lib with
  | some it => it.start
  | none => 0

/-- The library loop of `find_lib_regions`: the first library without a load address whose name is
in the path. -/
def setLibStart (it : Region) : List LibEntry → List LibEntry
  | [] => []
  | lit :: libs =>
    if lit.start ≠ 0 ∨ ¬ lit.name <:+: it.filePath then lit :: setLibStart it libs
    else { lit with start := it.start } :: libs

def findLibRegions (rlist : List Region) (libs : List LibEntry) : List LibEntry :=
  rlist.foldl (fun libs it => if it.type = .code ∧ it.exec then setLibStart it libs else libs) libs

end UgTrain
