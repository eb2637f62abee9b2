import UgTrain.CodeRegion

/-!
# Reading the regions (`lib/maps_l.c`)

`read_maps` calls `process_map` for each line of `/proc/$pid/maps`. A line that can be written or
executed becomes a region. The static variables of `process_map` tell to which file the line belongs and
where this one is loaded: the line of its code comes first, at most three more lines follow, and those of
the executable may follow later.

* `Layout`: the lines of a process as they should be, with the regions that they stand for.
* `readMaps_layout`: these regions are what is read, also when lines have been read before
  (`readAgain_layout`).
* `readMaps_attributes`: a code address is attributed to the region that contains it, and so to the file
  that has it.
-/

namespace UgTrain

/-- `struct region_map`. -/
structure RegionMap where
  start : Ptr
  /-- `end`. -/
  stop : Ptr
  read : Char
  write : Char
  exec : Char
  filePath : Str
  deriving DecidableEq, Repr

/-- `MAPS_MAX_PATH`. -/
def mapsMaxPath : Nat := 256

/-- `strncmp(path, path2, MAPS_MAX_PATH) == 0`. -/
def samePath (path path2 : Str) : Prop := path.take mapsMaxPath = path2.take mapsMaxPath

instance (path path2 : Str) : Decidable (samePath path path2) := inferInstanceAs (Decidable (_ = _))

/-- The static variables of `process_map`. -/
structure MapState where
  codePath : Str
  codeRegions : Nat
  exeRegions : Nat
  isExe : Bool
  prevEnd : Ptr
  loadAddr : Ptr
  exeLoad : Ptr
  deriving DecidableEq, Repr

namespace MapState

def init : MapState := ⟨[], 0, 0, false, 0, 0, 0⟩

/-- Further regions of the same ELF file and its end. -/
def further (s : MapState) (map : RegionMap) : MapState :=
  if s.codeRegions = 0 then s
  else if map.exec = 'x' ∨ (¬ samePath map.filePath s.codePath ∧
      (map.filePath ≠ [] ∨ map.start ≠ s.prevEnd)) ∨ 4 ≤ s.codeRegions then
    { s with
      codeRegions := 0
      isExe := false
      exeRegions := if 1 < s.exeRegions then 0 else s.exeRegions }
  else
    { s with
      codeRegions := s.codeRegions + 1
      exeRegions := if s.isExe then s.exeRegions + 1 else s.exeRegions }

/-- `strncpy(code_path, map->file_path, MAPS_MAX_PATH)` and its end. -/
def setCodePath (s : MapState) (path : Str) : MapState :=
  { s with codePath := path.take (mapsMaxPath - 1) }

/-- The first region of an ELF file, and the second one of the exe behind other regions. -/
def detect (exePath : Str) (s : MapState) (map : RegionMap) : MapState :=
  if map.exec = 'x' ∧ map.filePath ≠ [] then
    if samePath map.filePath exePath then
      { s with codeRegions := 1, exeRegions := 1, exeLoad := map.start, isExe := true }.setCodePath
        map.filePath
    else { s with codeRegions := 1 }.setCodePath map.filePath
  else if s.exeRegions = 1 ∧ map.filePath ≠ [] ∧ samePath map.filePath exePath then
    { s with codeRegions := 2, exeRegions := 2, loadAddr := s.exeLoad, isExe := true }.setCodePath
      map.filePath
  else s

/-- The state for a line, with the load address of its region. -/
def next (exePath : Str) (s : MapState) (map : RegionMap) : MapState :=
  let s := s.further map
  let s :=
    if s.codeRegions = 0 then
      let s := s.detect exePath map
      if s.exeRegions < 2 then { s with loadAddr := map.start } else s
    else s
  { s with prevEnd := map.stop }

/-- The type of the region. -/
def regionType (s : MapState) (map : RegionMap) : RegionType :=
  if s.isExe then .exe
  else if 0 < s.codeRegions then .code
  else if map.filePath = "[heap]".toList then .heap
  else if map.filePath = "[stack]".toList then .stack
  else .misc

end MapState

/-- The region of a line, if it has one. -/
def RegionMap.region? (map : RegionMap) (type : RegionType) (loadAddr : Ptr) : Option CodeRegion :=
  if (map.write = 'w' ∨ map.exec = 'x') ∧ map.read = 'r' ∧ 0 < map.stop - map.start then
    some ⟨⟨map.start, map.stop - map.start, type, map.exec = 'x', map.filePath⟩, loadAddr⟩
  else none

/-- `process_map`. -/
def processMap (exePath : Str) (s : MapState) (map : RegionMap) : MapState × Option CodeRegion :=
  let s := s.next exePath map
  (s, map.region? (s.regionType map) s.loadAddr)

/-- `read_maps`. -/
def readMaps (exePath : Str) (s : MapState) : List RegionMap → MapState × List CodeRegion
  | [] => (s, [])
  | map :: maps =>
    let (s, region) := processMap exePath s map
    let (s, regions) := readMaps exePath s maps
    (s, region.toList ++ regions)

/-- The lines are read again and again. -/
def readAgain (exePath : Str) (s : MapState) : List (List RegionMap) → List (List CodeRegion)
  | [] => []
  | maps :: readings =>
    (readMaps exePath s maps).2 :: readAgain exePath (readMaps exePath s maps).1 readings

/-! ## How the lines should be -/

/-- The lines of a file behind the one of its code, or behind one that ends at `prevEnd`. -/
def Segments (path : Str) (prevEnd : Ptr) : List RegionMap → Prop
  | [] => True
  | map :: maps => map.exec ≠ 'x' ∧ (map.filePath = path ∨ map.filePath = [] ∧ map.start = prevEnd) ∧
    Segments path map.stop maps

/-- The end of the last line. -/
def lastEnd (prevEnd : Ptr) : List RegionMap → Ptr
  | [] => prevEnd
  | map :: maps => lastEnd map.stop maps

/-- The regions of the lines of a file. -/
def segmentRegions (type : RegionType) (loadAddr : Ptr) (maps : List RegionMap) : List CodeRegion :=
  maps.filterMap fun map => map.region? type loadAddr

/-- A line that does not belong to a file with its code. -/
def RegionMap.plainType (map : RegionMap) : RegionType :=
  if map.filePath = "[heap]".toList then .heap
  else if map.filePath = "[stack]".toList then .stack
  else .misc

/-- The line does not go on with the file of the lines before. -/
def Ends (prev : Option (Str × Ptr)) (map : RegionMap) : Prop :=
  map.exec = 'x' ∨ ∀ p ∈ prev, map.filePath ≠ p.1 ∧ (map.filePath ≠ [] ∨ map.start ≠ p.2)

/-- The code of a file. -/
structure RegionMap.IsText (map : RegionMap) : Prop where
  exec : map.exec = 'x'
  path : map.filePath ≠ []
  short : map.filePath.length < mapsMaxPath

/-- **The lines of a process.** `pending` is where the executable was loaded whose other lines have not
come yet, `prev` the file of the line before and the end of that one. -/
inductive Layout (exePath : Str) :
    Option Ptr → Option (Str × Ptr) → List RegionMap → List CodeRegion → Prop
  | nil {prev} : Layout exePath none prev [] []
  /-- A library. -/
  | lib {pending prev text rest maps regions} (ht : text.IsText) (hlib : text.filePath ≠ exePath)
      (hrest : Segments text.filePath text.stop rest) (hlen : rest.length ≤ 3)
      (h : Layout exePath pending (some (text.filePath, lastEnd text.stop rest)) maps regions) :
      Layout exePath pending prev (text :: rest ++ maps)
        (segmentRegions .code text.start (text :: rest) ++ regions)
  /-- The executable without a gap. -/
  | exe {prev text rest maps regions} (ht : text.IsText) (hexe : text.filePath = exePath)
      (hne : rest ≠ []) (hrest : Segments exePath text.stop rest) (hlen : rest.length ≤ 3)
      (h : Layout exePath none (some (exePath, lastEnd text.stop rest)) maps regions) :
      Layout exePath none prev (text :: rest ++ maps)
        (segmentRegions .exe text.start (text :: rest) ++ regions)
  /-- The code of the executable in front of a gap. -/
  | exeText {prev text maps regions} (ht : text.IsText) (hexe : text.filePath = exePath)
      (h : Layout exePath (some text.start) (some (exePath, text.stop)) maps regions) :
      Layout exePath none prev (text :: maps)
        (segmentRegions .exe text.start [text] ++ regions)
  /-- The other lines of the executable behind the gap. -/
  | exeRest {load prev map rest maps regions} (hexe : map.filePath = exePath)
      (hexec : map.exec ≠ 'x') (hends : Ends prev map)
      (hrest : Segments exePath map.stop rest) (hlen : rest.length ≤ 2)
      (h : Layout exePath none (some (exePath, lastEnd map.stop rest)) maps regions) :
      Layout exePath (some load) prev (map :: rest ++ maps)
        (segmentRegions .exe load (map :: rest) ++ regions)
  /-- Anything else. -/
  | other {pending prev map maps regions} (hplain : map.exec ≠ 'x' ∨ map.filePath = [])
      (hends : Ends prev map) (hexe : pending.isSome → map.filePath ≠ exePath)
      (h : Layout exePath pending none maps regions) :
      Layout exePath pending prev (map :: maps)
        ((map.region? map.plainType map.start).toList ++ regions)

/-! ## Reading them -/

section Reading

variable {exePath path : Str} {s s' : MapState} {map text : RegionMap} {maps maps' rest : List RegionMap}
  {prevEnd load : Ptr} {exe : Bool} {k x : Nat} {pending : Option Ptr} {prev : Option (Str × Ptr)}
  {regions : List CodeRegion}

theorem samePath_iff (h : path.length < mapsMaxPath) (p : Str) : samePath p path ↔ p = path := by
  have hpath : path.take mapsMaxPath = path := List.take_of_length_le (by omega)
  unfold samePath
  rw [hpath]
  constructor
  · intro heq
    have hlen := congrArg List.length heq
    rw [List.length_take] at hlen
    rw [← heq, List.take_of_length_le (by omega)]
  · rintro rfl
    exact hpath

theorem readMaps_append : readMaps exePath s (maps ++ maps') =
    ((readMaps exePath (readMaps exePath s maps).1 maps').1,
      (readMaps exePath s maps).2 ++ (readMaps exePath (readMaps exePath s maps).1 maps').2) := by
  induction maps generalizing s with
  | nil => rfl
  | cons map maps ih =>
    simp only [List.cons_append, readMaps, ih, List.append_assoc]

namespace MapState

/-- Inside of a file whose `k` lines were read. -/
structure Inside (s : MapState) (path : Str) (prevEnd load : Ptr) (exe : Bool) (k x : Nat) : Prop where
  codePath : s.codePath = path
  short : path.length < mapsMaxPath
  prevEnd : s.prevEnd = prevEnd
  loadAddr : s.loadAddr = load
  isExe : s.isExe = exe
  codeRegions : s.codeRegions = k
  pos : 0 < k
  exeRegions : s.exeRegions = x

/-- The state behind the lines of a file. -/
def left (s : MapState) (pending : Option Ptr) : MapState :=
  { s with codeRegions := 0, isExe := false, exeRegions := if pending.isSome then 1 else 0 }

/-- Between two files. -/
structure Between (s : MapState) (pending : Option Ptr) (prev : Option (Str × Ptr)) : Prop where
  ends : ∀ map, Ends prev map → s.further map = s.left pending
  load : ∀ load ∈ pending, s.exeLoad = load

theorem init_between : init.Between none prev :=
  ⟨fun _ _ => rfl, fun _ h => absurd h (Option.not_mem_none _)⟩

/-- The type of the lines of a file. -/
def fileType (exe : Bool) : RegionType := if exe then .exe else .code

theorem Inside.step (h : s.Inside path prevEnd load exe k x) (exePath : Str) (hk : k ≤ 3)
    (hexec : map.exec ≠ 'x')
    (hpath : map.filePath = path ∨ map.filePath = [] ∧ map.start = prevEnd) :
    (processMap exePath s map).2 = map.region? (fileType exe) load ∧
      (processMap exePath s map).1.Inside path map.stop load exe (k + 1) (if exe then x + 1 else x) ∧
      (processMap exePath s map).1.exeLoad = s.exeLoad := by
  have hpos := h.pos
  have hon : ¬ (map.exec = 'x' ∨ (¬ samePath map.filePath s.codePath ∧
      (map.filePath ≠ [] ∨ map.start ≠ s.prevEnd)) ∨ 4 ≤ s.codeRegions) := by
    rw [h.codePath, h.prevEnd, h.codeRegions, samePath_iff h.short]
    rintro (hx | ⟨hne, hother⟩ | hfour)
    · exact hexec hx
    · rcases hpath with heq | ⟨hnil, hstart⟩
      · exact hne heq
      · exact hother.elim (· hnil) (· hstart)
    · omega
  have hfurther : s.further map = { s with
      codeRegions := s.codeRegions + 1
      exeRegions := if s.isExe then s.exeRegions + 1 else s.exeRegions } := by
    unfold further
    rw [if_neg (by rw [h.codeRegions]; omega), if_neg hon]
  have hnext : s.next exePath map = { s with
      codeRegions := s.codeRegions + 1
      exeRegions := if s.isExe then s.exeRegions + 1 else s.exeRegions
      prevEnd := map.stop } := by
    unfold next
    rw [hfurther]
    dsimp only
    rw [if_neg (Nat.succ_ne_zero _)]
  unfold processMap
  dsimp only
  rw [hnext]
  refine ⟨?_, ⟨h.codePath, h.short, rfl, h.loadAddr, h.isExe, ?_, Nat.succ_pos k, ?_⟩, rfl⟩
  · unfold regionType fileType
    dsimp only
    rw [h.isExe, h.loadAddr, if_pos (Nat.succ_pos _)]
  · dsimp only
    rw [h.codeRegions]
  · dsimp only
    rw [h.isExe, h.exeRegions]

/-- The lines of a file. -/
theorem Inside.run (h : s.Inside path prevEnd load exe k x) (exePath : Str)
    (hlen : k + rest.length ≤ 4)
    (hrest : Segments path prevEnd rest) :
    (readMaps exePath s rest).2 = segmentRegions (fileType exe) load rest ∧
      (readMaps exePath s rest).1.Inside path (lastEnd prevEnd rest) load exe (k + rest.length)
        (if exe then x + rest.length else x) ∧
      (readMaps exePath s rest).1.exeLoad = s.exeLoad := by
  induction rest generalizing s prevEnd k x with
  | nil =>
    refine ⟨rfl, ?_, rfl⟩
    cases exe <;> exact h
  | cons map rest ih =>
    rw [List.length_cons] at hlen
    obtain ⟨hexec, hpath, hrest⟩ := hrest
    obtain ⟨hregion, hin, hload⟩ := h.step exePath (by omega) hexec hpath
    obtain ⟨hregions, hin', hload'⟩ := ih hin (by omega) hrest
    refine ⟨?_, ?_, hload'.trans hload⟩
    · rw [readMaps]
      dsimp only
      rw [hregion, hregions, segmentRegions, segmentRegions, List.filterMap_cons]
      cases map.region? (fileType exe) load <;> rfl
    · have hk : k + (rest.length + 1) = k + 1 + rest.length := by omega
      have hx : (if exe then x + (rest.length + 1) else x) =
          if exe then (if exe then x + 1 else x) + rest.length else if exe then x + 1 else x := by
        cases exe
        · rfl
        · exact (Nat.add_right_comm x 1 rest.length).symm
      rw [List.length_cons, hk, hx]
      exact hin'

theorem Inside.between (h : s.Inside path prevEnd load exe k x)
    (hx : (if 1 < x then 0 else x) = if pending.isSome then 1 else 0)
    (hload : ∀ load ∈ pending, s.exeLoad = load) : s.Between pending (some (path, prevEnd)) := by
  refine ⟨fun map hends => ?_, hload⟩
  have hpos := h.pos
  have hoff : map.exec = 'x' ∨ (¬ samePath map.filePath s.codePath ∧
      (map.filePath ≠ [] ∨ map.start ≠ s.prevEnd)) ∨ 4 ≤ s.codeRegions := by
    rw [h.codePath, h.prevEnd, samePath_iff h.short]
    rcases hends with hexec | hother
    · exact .inl hexec
    · exact .inr (.inl (hother _ rfl))
  unfold further left
  rw [if_neg (by rw [h.codeRegions]; omega), if_pos hoff, h.exeRegions, hx]

/-- A line between two files. -/
theorem Between.next_eq (h : s.Between pending prev) (hends : Ends prev map) : s.next exePath map =
    { (if ((s.left pending).detect exePath map).exeRegions < 2 then
        { (s.left pending).detect exePath map with loadAddr := map.start }
      else (s.left pending).detect exePath map) with prevEnd := map.stop } := by
  unfold next
  rw [h.ends map hends]
  rfl

theorem setCodePath_eq (h : path.length < mapsMaxPath) :
    s.setCodePath path = { s with codePath := path } := by
  unfold setCodePath
  rw [List.take_of_length_le (Nat.le_sub_one_of_lt h)]

/-- The code of a library. -/
theorem Between.lib (h : s.Between pending prev) (ht : text.IsText)
    (hexe : exePath.length < mapsMaxPath) (hlib : text.filePath ≠ exePath) :
    (processMap exePath s text).2 = text.region? .code text.start ∧
      (processMap exePath s text).1.Inside text.filePath text.stop text.start false 1
        (if pending.isSome then 1 else 0) ∧
      (processMap exePath s text).1.exeLoad = s.exeLoad := by
  have hdetect : (s.left pending).detect exePath text =
      { s.left pending with codeRegions := 1, codePath := text.filePath } := by
    unfold detect
    rw [if_pos ⟨ht.exec, ht.path⟩, if_neg (by rwa [samePath_iff hexe]), setCodePath_eq ht.short]
  have hlt : (if pending.isSome then 1 else 0) < 2 := by split <;> omega
  have hnext : s.next exePath text = { s.left pending with
      codeRegions := 1
      codePath := text.filePath
      loadAddr := text.start
      prevEnd := text.stop } := by
    rw [h.next_eq (.inl ht.exec), hdetect]
    exact congrArg (fun s : MapState => { s with prevEnd := text.stop }) (if_pos hlt)
  unfold processMap
  dsimp only
  rw [hnext]
  exact ⟨rfl, ⟨rfl, ht.short, rfl, rfl, rfl, rfl, Nat.one_pos, rfl⟩, rfl⟩

/-- The code of the executable. -/
theorem Between.exeText (h : s.Between none prev) (ht : text.IsText) (hexe : text.filePath = exePath) :
    (processMap exePath s text).2 = text.region? .exe text.start ∧
      (processMap exePath s text).1.Inside exePath text.stop text.start true 1 1 ∧
      (processMap exePath s text).1.exeLoad = text.start := by
  subst hexe
  have hdetect : (s.left none).detect text.filePath text = { s.left none with
      codeRegions := 1
      exeRegions := 1
      exeLoad := text.start
      isExe := true
      codePath := text.filePath } := by
    unfold detect
    rw [if_pos ⟨ht.exec, ht.path⟩, if_pos (show samePath _ _ from rfl), setCodePath_eq ht.short]
  have hnext : s.next text.filePath text = { s.left none with
      codeRegions := 1
      exeRegions := 1
      exeLoad := text.start
      isExe := true
      codePath := text.filePath
      loadAddr := text.start
      prevEnd := text.stop } := by
    rw [h.next_eq (.inl ht.exec), hdetect]
    exact congrArg (fun s : MapState => { s with prevEnd := text.stop }) (if_pos Nat.one_lt_two)
  unfold processMap
  dsimp only
  rw [hnext]
  exact ⟨rfl, ⟨rfl, ht.short, rfl, rfl, rfl, rfl, Nat.one_pos, rfl⟩, rfl⟩

/-- The first line of the executable behind the gap. -/
theorem Between.exeRest (h : s.Between (some load) prev) (hexec : map.exec ≠ 'x')
    (hends : Ends prev map) (hexe : map.filePath = exePath) (hne : exePath ≠ [])
    (hshort : exePath.length < mapsMaxPath) :
    (processMap exePath s map).2 = map.region? .exe load ∧
      (processMap exePath s map).1.Inside exePath map.stop load true 2 2 := by
  subst hexe
  have hdetect : (s.left (some load)).detect map.filePath map = { s.left (some load) with
      codeRegions := 2
      exeRegions := 2
      loadAddr := s.exeLoad
      isExe := true
      codePath := map.filePath } := by
    unfold detect
    rw [if_neg fun hx => hexec hx.1, if_pos ⟨rfl, hne, rfl⟩, setCodePath_eq hshort]
    rfl
  have hnext : s.next map.filePath map = { s.left (some load) with
      codeRegions := 2
      exeRegions := 2
      loadAddr := load
      isExe := true
      codePath := map.filePath
      prevEnd := map.stop } := by
    rw [h.next_eq hends, hdetect, h.load load rfl]
    exact congrArg (fun s : MapState => { s with prevEnd := map.stop }) (if_neg (Nat.lt_irrefl 2))
  unfold processMap
  dsimp only
  rw [hnext]
  exact ⟨rfl, rfl, hshort, rfl, rfl, rfl, rfl, Nat.two_pos, rfl⟩

/-- A line of no file with code. -/
theorem Between.other (h : s.Between pending prev) (hplain : map.exec ≠ 'x' ∨ map.filePath = [])
    (hends : Ends prev map) (hexe : pending.isSome → map.filePath ≠ exePath)
    (hshort : exePath.length < mapsMaxPath) :
    (processMap exePath s map).2 = map.region? map.plainType map.start ∧
      (processMap exePath s map).1.Between pending none := by
  have hdetect : (s.left pending).detect exePath map = s.left pending := by
    unfold detect
    rw [if_neg fun hx => hplain.elim (· hx.1) hx.2, if_neg]
    rintro ⟨hone, -, hsame⟩
    refine hexe ?_ ((samePath_iff hshort _).mp hsame)
    cases pending with
    | none => cases hone
    | some load => rfl
  have hlt : (if pending.isSome then 1 else 0) < 2 := by split <;> omega
  have hnext : s.next exePath map = { s.left pending with
      loadAddr := map.start
      prevEnd := map.stop } := by
    rw [h.next_eq hends, hdetect]
    exact congrArg (fun s : MapState => { s with prevEnd := map.stop }) (if_pos hlt)
  unfold processMap
  dsimp only
  rw [hnext]
  exact ⟨rfl, fun _ _ => rfl, h.load⟩

end MapState

theorem segmentRegions_cons (type : RegionType) : segmentRegions type load (map :: maps) =
    (map.region? type load).toList ++ segmentRegions type load maps := by
  unfold segmentRegions
  rw [List.filterMap_cons]
  cases map.region? type load <;> rfl

/-- The lines of a file, in front of others. -/
theorem readMaps_file {type : RegionType}
    (hregion : (processMap exePath s map).2 = map.region? type load)
    (hrest : (readMaps exePath (processMap exePath s map).1 rest).2 = segmentRegions type load rest) :
    readMaps exePath s (map :: rest ++ maps) =
      ((readMaps exePath (readMaps exePath (processMap exePath s map).1 rest).1 maps).1,
        segmentRegions type load (map :: rest) ++
          (readMaps exePath (readMaps exePath (processMap exePath s map).1 rest).1 maps).2) := by
  rw [List.cons_append, readMaps]
  dsimp only
  rw [readMaps_append, segmentRegions_cons, hregion, hrest, List.append_assoc]

/-- **The regions of a process** are those that its lines stand for. -/
theorem readMaps_layout (hne : exePath ≠ []) (hshort : exePath.length < mapsMaxPath)
    (h : Layout exePath pending prev maps regions) (hs : s.Between pending prev) :
    (readMaps exePath s maps).2 = regions ∧
      ∃ prev', (readMaps exePath s maps).1.Between none prev' := by
  induction h generalizing s with
  | nil => exact ⟨rfl, _, hs⟩
  | lib ht hlib hrest hlen h ih =>
    rename_i pending prev text rest maps regions
    obtain ⟨hregion, hin, hload⟩ := hs.lib ht hshort hlib
    obtain ⟨hregions, hin', hload'⟩ := hin.run exePath (by omega) hrest
    have hx : (if 1 < (if pending.isSome then 1 else 0) then 0 else if pending.isSome then 1 else 0) =
        if pending.isSome then 1 else 0 := if_neg (by split <;> omega)
    obtain ⟨htail, hend⟩ := ih (hin'.between hx fun load hl => by rw [hload', hload, hs.load load hl])
    rw [readMaps_file hregion hregions]
    exact ⟨by rw [htail], hend⟩
  | exe ht hexe hrestNe hrest hlen h ih =>
    obtain ⟨hregion, hin, -⟩ := hs.exeText ht hexe
    obtain ⟨hregions, hin', -⟩ := hin.run exePath (by omega) hrest
    have hpos := List.length_pos_of_ne_nil hrestNe
    obtain ⟨htail, hend⟩ := ih (hin'.between (if_pos (by rw [if_pos rfl]; omega))
      fun load hl => absurd hl (Option.not_mem_none load))
    rw [readMaps_file hregion hregions]
    exact ⟨by rw [htail], hend⟩
  | exeText ht hexe h ih =>
    obtain ⟨hregion, hin, hload⟩ := hs.exeText ht hexe
    obtain ⟨htail, hend⟩ := ih (hin.between rfl fun load hl =>
      hload.trans (Option.mem_some_iff.mp hl))
    refine ⟨?_, hend⟩
    rw [readMaps, segmentRegions_cons]
    dsimp only
    rw [hregion, htail]
    exact congrArg (· ++ _) (List.append_nil _).symm
  | exeRest hexe hexec hends hrest hlen h ih =>
    obtain ⟨hregion, hin⟩ := hs.exeRest hexec hends hexe hne hshort
    obtain ⟨hregions, hin', -⟩ := hin.run exePath (by omega) hrest
    obtain ⟨htail, hend⟩ := ih (hin'.between (if_pos (by rw [if_pos rfl]; omega))
      fun load hl => absurd hl (Option.not_mem_none load))
    rw [readMaps_file hregion hregions]
    exact ⟨by rw [htail], hend⟩
  | other hplain hends hexe h ih =>
    obtain ⟨hregion, hnext⟩ := hs.other hplain hends hexe hshort
    obtain ⟨htail, hend⟩ := ih hnext
    refine ⟨?_, hend⟩
    rw [readMaps]
    dsimp only
    rw [hregion, htail]

/-- **Each reading** gives the regions of its own lines: what the static variables have kept from the
one before makes no difference. Each has the executable in it, with more than one line. No reading
starts with a plain line that is not executable: it would be taken for one of the last file of the
reading before, whatever this is (`∀ prev`). -/
theorem readAgain_layout (hne : exePath ≠ []) (hshort : exePath.length < mapsMaxPath)
    {readings : List (List RegionMap × List CodeRegion)}
    (h : ∀ r ∈ readings, ∀ prev, Layout exePath none prev r.1 r.2) :
    readAgain exePath .init (readings.map (·.1)) = readings.map (·.2) := by
  have hrun : ∀ s prev, s.Between none prev →
      readAgain exePath s (readings.map (·.1)) = readings.map (·.2) := by
    induction readings with
    | nil => exact fun _ _ _ => rfl
    | cons r readings ih =>
      intro s prev hs
      obtain ⟨hregions, prev', hend⟩ := readMaps_layout hne hshort (h r List.mem_cons_self prev) hs
      rw [List.map_cons, List.map_cons, readAgain, hregions,
        ih (fun r hr => h r (List.mem_cons_of_mem _ hr)) _ prev' hend]
  exact hrun _ none MapState.init_between

/-! ## Addresses -/

/-- The lines do not overlap. -/
structure Ascending (maps : List RegionMap) : Prop where
  ordered : ∀ map ∈ maps, map.start.toNat ≤ map.stop.toNat
  pairwise : maps.Pairwise fun map next => map.stop.toNat ≤ next.start.toNat

theorem region?_bounds {type : RegionType} {it : CodeRegion}
    (hle : map.start.toNat ≤ map.stop.toNat) (h : map.region? type load = some it) :
    it.start = map.start ∧ it.start.toNat + it.size.toNat = map.stop.toNat := by
  unfold RegionMap.region? at h
  split at h
  · cases h
    refine ⟨rfl, ?_⟩
    dsimp only
    rw [BitVec.toNat_sub_of_le (BitVec.le_def.mpr hle)]
    omega
  · cases h

/-- Each region has its line. -/
theorem readMaps_line {it : CodeRegion} (h : ∀ map ∈ maps, map.start.toNat ≤ map.stop.toNat)
    (hit : it ∈ (readMaps exePath s maps).2) :
    ∃ map ∈ maps, it.start = map.start ∧ it.start.toNat + it.size.toNat = map.stop.toNat := by
  induction maps generalizing s with
  | nil => cases hit
  | cons map maps ih =>
    rw [readMaps] at hit
    rcases List.mem_append.mp hit with hit | hit
    · exact ⟨map, List.mem_cons_self,
        region?_bounds (h map List.mem_cons_self) (Option.mem_toList.mp hit)⟩
    · obtain ⟨map', hmem, hb⟩ := ih (fun map' hm => h map' (List.mem_cons_of_mem _ hm)) hit
      exact ⟨map', List.mem_cons_of_mem _ hmem, hb⟩

theorem readMaps_ascending (h : Ascending maps) : (readMaps exePath s maps).2.Pairwise
    fun it next => it.start.toNat + it.size.toNat ≤ next.start.toNat := by
  obtain ⟨hle, hpair⟩ := h
  induction maps generalizing s with
  | nil => exact .nil
  | cons map maps ih =>
    obtain ⟨hfirst, hpair⟩ := List.pairwise_cons.mp hpair
    have hle' : ∀ map' ∈ maps, map'.start.toNat ≤ map'.stop.toNat := fun map' hm =>
      hle map' (List.mem_cons_of_mem _ hm)
    rw [readMaps]
    refine List.pairwise_append.mpr ⟨?_, ih hle' hpair, fun it hit next hnext => ?_⟩
    · cases (processMap exePath s map).2 with
      | none => exact .nil
      | some it => exact List.pairwise_singleton _ it
    · obtain ⟨-, hend⟩ := region?_bounds (hle map List.mem_cons_self) (Option.mem_toList.mp hit)
      obtain ⟨map', hmem, hstart, -⟩ := readMaps_line hle' hnext
      rw [hend, hstart]
      exact hfirst map' hmem

/-- The list of the regions, as it is searched. -/
theorem readMaps_list (exePath : Str) (s : MapState) (h : Ascending maps) :
    ∃ l : RegionList, l.regions = (readMaps exePath s maps).2 := by
  refine ⟨⟨_, fun it hit => ?_, readMaps_ascending h⟩, rfl⟩
  obtain ⟨map, -, -, hend⟩ := readMaps_line h.ordered hit
  rw [hend]
  exact map.stop.isLt

/-- A region that contains the address is found, if no other one ends there. -/
theorem codeAddrToRegion_contains {l : RegionList} {exeOffs : Ptr} {c : CodeAddr} {it : CodeRegion}
    (hit : it ∈ l.regions) (hu : it.Usable) (hc : it.Contains c.codeAddr)
    (hno : ∀ it ∈ l.regions, ¬ it.EndsAt c.codeAddr) :
    codeAddrToRegion exeOffs c l.regions = (true, it.attribute exeOffs c) := by
  obtain ⟨pre, post, hl⟩ := List.append_of_mem hit
  have hasc := l.ascending
  rw [hl] at hasc
  have hfind : l.regions.find? (fun it => decide (it.Reaches c.codeAddr)) = some it := by
    refine List.find?_eq_some_iff_append.mpr ⟨decide_eq_true (hc.reaches hu), pre, post, hl, ?_⟩
    intro before hmem
    have hle := (List.pairwise_append.mp hasc).2.2 before hmem it List.mem_cons_self
    have hstart := hc.1
    have hnot : ¬ before.Reaches c.codeAddr := by
      rintro ⟨hbu, hreach⟩
      exact hno before (hl ▸ List.mem_append_left _ hmem) ⟨hbu, by omega⟩
    simpa using hnot
  have hlt : ¬ c.codeAddr < it.start := by
    rw [BitVec.lt_def]
    exact not_lt.mpr hc.1
  rw [codeAddrToRegion_eq l.ends, hfind]
  exact if_neg hlt

/-- **Attribution.** A code address in an executable line of a file is attributed to this file, relative
to where the code of the file was loaded; for the executable it is relative to `exeOffs`. -/
theorem readMaps_attributes (exeOffs : Ptr) (c : CodeAddr) (hne : exePath ≠ [])
    (hshort : exePath.length < mapsMaxPath) (h : Layout exePath none prev maps regions)
    (hs : s.Between none prev) (hasc : Ascending maps) {it : CodeRegion} (hit : it ∈ regions)
    (hu : it.Usable) (hc : it.Contains c.codeAddr) (hno : ∀ it ∈ regions, ¬ it.EndsAt c.codeAddr) :
    codeAddrToRegion exeOffs c (readMaps exePath s maps).2 = (true, it.attribute exeOffs c) := by
  obtain ⟨l, hl⟩ := readMaps_list exePath s hasc
  obtain ⟨hregions, -⟩ := readMaps_layout hne hshort h hs
  rw [hregions] at hl ⊢
  subst hl
  exact codeAddrToRegion_contains hit hu hc hno

end Reading

/-! ## A game -/

def gamePath : Str := "/usr/games/game".toList

def libPath : Str := "/usr/lib/liba.so".toList

def gameText : RegionMap := ⟨0x400000, 0x401000, 'r', '-', 'x', gamePath⟩

def libCode : RegionMap := ⟨0x500000, 0x503000, 'r', '-', 'x', libPath⟩

def libData : RegionMap := ⟨0x503000, 0x504000, 'r', 'w', '-', libPath⟩

def gameData : RegionMap := ⟨0x601000, 0x602000, 'r', 'w', '-', gamePath⟩

def gameBss : RegionMap := ⟨0x602000, 0x603000, 'r', 'w', '-', []⟩

def gameHeap : RegionMap := ⟨0x604000, 0x625000, 'r', 'w', '-', "[heap]".toList⟩

/-- A library is in the gap of the executable. -/
def gameLines : List RegionMap :=
  gameText :: (libCode :: [libData] ++ (gameData :: [gameBss] ++ [gameHeap]))

def gameRegions : List CodeRegion :=
  segmentRegions .exe gameText.start [gameText] ++
    (segmentRegions .code libCode.start (libCode :: [libData]) ++
      (segmentRegions .exe gameText.start (gameData :: [gameBss]) ++
        ((gameHeap.region? gameHeap.plainType gameHeap.start).toList ++ [])))

theorem gameLayout (prev : Option (Str × Ptr)) : Layout gamePath none prev gameLines gameRegions := by
  refine .exeText ⟨rfl, by decide, by decide⟩ rfl ?_
  refine .lib ⟨rfl, by decide, by decide⟩ (by decide) ⟨by decide, .inl rfl, trivial⟩ (by decide) ?_
  refine .exeRest rfl (by decide) (.inr fun p hp => ?_) ⟨by decide, .inr ⟨rfl, rfl⟩, trivial⟩
    (by decide) ?_
  · cases hp
    decide
  refine .other (.inl (by decide)) (.inr fun p hp => ?_) (fun h => absurd h (by decide)) .nil
  cases hp
  decide

/-- The lines of the game are read twice. -/
theorem readAgain_layout_example :
    readAgain gamePath .init [gameLines, gameLines] = [gameRegions, gameRegions] ∧
      gameRegions.map (fun it => (it.start, it.type, it.loadAddr)) =
        [(0x400000, .exe, 0x400000), (0x500000, .code, 0x500000), (0x503000, .code, 0x500000),
          (0x601000, .exe, 0x400000), (0x602000, .exe, 0x400000), (0x604000, .heap, 0x604000)] := by
  have h : ∀ r ∈ [(gameLines, gameRegions), (gameLines, gameRegions)], ∀ prev,
      Layout gamePath none prev r.1 r.2 := by
    intro r hr prev
    obtain rfl : r = (gameLines, gameRegions) := by simpa using hr
    exact gameLayout prev
  exact ⟨readAgain_layout (by decide) (by decide) h, by decide⟩

/-- An address in the code of the library. -/
theorem readMaps_attributes_example :
    codeAddrToRegion 0 ⟨0x501234, [], []⟩ (readMaps gamePath .init gameLines).2 =
      (true, ⟨0x1234, libPath, "liba.so".toList⟩) := by
  have hit : (⟨⟨0x500000, 0x3000, .code, true, libPath⟩, 0x500000⟩ : CodeRegion) ∈ gameRegions := by
    decide
  have hno : ∀ it ∈ gameRegions, ¬ it.EndsAt (CodeAddr.codeAddr ⟨0x501234, [], []⟩) := by decide
  have hasc : Ascending gameLines := ⟨by decide, by decide⟩
  rw [readMaps_attributes 0 _ (by decide) (by decide) (gameLayout none) MapState.init_between hasc hit
    (by decide) (by decide) hno]
  decide

end UgTrain
