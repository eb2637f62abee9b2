import UgTrain.CLib.TextFile
import UgTrain.CfgEntry

/-!
# The config file (`cfgparser.cpp`, `adapt.cpp`)

`read_config_vect` collects the lines of the config, and `write_config_vect` writes them back after an
adaption. The writer drops the last line, which is the empty one that the reader has behind a final
line break. `configText_iff`: so the text survives exactly if there is such a line break, or no text.
-/

namespace UgTrain

open CLib

/-- Files by their path, and the ones that can be written. -/
structure FileSys where
  file : Str → Option Str
  canWrite : Str → Bool

/-- `CFG_DIR` -/
def cfgDir : Str := "~/.ugtrain/".toList

/-- `CFG_EXT` -/
def cfgExt : Str := ".conf".toList

/-- `~` at the start of a path. -/
def replaceHome (home path : Str) : Str :=
  match path with
  | '~' :: rest => home ++ rest
  | path => path

/-- `CFG_EXT` is appended if it is not there. -/
def appendExt (path : Str) : Str := if cfgExt <:+ path then path else path ++ cfgExt

/-- `read_config_vect`: the path that is opened, and the lines; `none` is the exit. -/
def readConfigVect (fs : FileSys) (home path : Str) : Option (Str × List Str) :=
  let path := appendExt (replaceHome home path)
  match fs.file path with
  | some text => some (path, getlines text)
  | none =>
    let path := replaceHome home (cfgDir ++ path)
    (fs.file path).map fun text => (path, getlines text)

/-- `write_config_vect`: the files and the lines behind it; `none` is the error. -/
def writeConfigVect (fs : FileSys) (path : Str) (cfgLines : List Str) :
    Option FileSys × List Str :=
  let cfgLines := cfgLines.dropLast
  (if fs.canWrite path then
    some { fs with file := Function.update fs.file path (some (fileText cfgLines)) }
  else none, cfgLines)

section Config

variable {fs fs' : FileSys} {home path path' text : Str} {cfgLines ls : List Str}

theorem readConfigVect_eq (h : readConfigVect fs home path = some (path', cfgLines)) :
    ∃ text, fs.file path' = some text ∧ cfgLines = getlines text := by
  unfold readConfigVect at h
  dsimp only at h
  split at h
  · rename_i text htext
    cases h
    exact ⟨text, htext, rfl⟩
  · obtain ⟨text, htext, heq⟩ := Option.map_eq_some_iff.mp h
    cases heq
    exact ⟨text, htext, rfl⟩

theorem writeConfigVect_file (h : (writeConfigVect fs path cfgLines).1 = some fs') :
    fs'.file path = some (fileText cfgLines.dropLast) ∧
      ∀ path', path' ≠ path → fs'.file path' = fs.file path' := by
  unfold writeConfigVect at h
  dsimp only at h
  split at h
  · cases h
    exact ⟨Function.update_self .., fun path' hne => Function.update_of_ne hne ..⟩
  · cases h

/-- What is written of the lines of a text. -/
theorem fileText_getlines (h : FileLines text ls) :
    FileLines (fileText (getlines text).dropLast) ls ↔ Closed text := by
  constructor
  · intro hwritten
    by_contra hopen
    obtain ⟨hlines, hne⟩ := h.getlines_open hopen
    -- the last line is dropped
    have hdrop : FileLines (fileText (getlines text).dropLast) ls.dropLast := by
      rw [hlines]
      exact fileLines_fileText fun l hl => h.not_mem l (List.dropLast_subset _ hl)
    have hlen := congrArg List.length (hwritten.unique hdrop)
    have hpos := List.length_pos_of_ne_nil hne
    rw [List.length_dropLast] at hlen
    omega
  · intro hclosed
    rw [h.getlines_closed hclosed, List.dropLast_concat]
    exact fileLines_fileText h.not_mem

end Config

section Config

variable {fs fs' : FileSys} {home path path' : Str} {cfgLines : List Str}

/-- The lines of a text that ends with a line break: the last one is empty. -/
theorem readConfigVect_lines (hread : readConfigVect fs home path = some (path', cfgLines))
    (hbreak : ∀ text ∈ fs.file path', text.getLast? = some '\n') :
    (∀ l ∈ cfgLines, '\n' ∉ l) ∧ cfgLines.getLast? = some [] := by
  obtain ⟨text, htext, rfl⟩ := readConfigVect_eq hread
  obtain ⟨ls, hls⟩ := exists_fileLines text
  have hclosed : Closed text := by
    unfold Closed
    rw [hbreak text htext]
    rfl
  rw [hls.getlines_closed hclosed]
  refine ⟨fun l hl => ?_, List.getLast?_concat⟩
  rcases List.mem_append.mp hl with hl | hl
  · exact hls.not_mem l hl
  · rw [List.mem_singleton.mp hl]
    exact List.not_mem_nil

/-- **What is written is read**: the lines in front of an empty one, in the file that was read. -/
theorem readConfigVect_written {cfgLines' : List Str}
    (hread : readConfigVect fs home path = some (path', cfgLines))
    (hwrite : (writeConfigVect fs path' cfgLines').1 = some fs')
    (hlines : ∀ l ∈ cfgLines', '\n' ∉ l) (hlast : cfgLines'.getLast? = some []) :
    readConfigVect fs' home path = some (path', cfgLines') := by
  obtain ⟨hfile, hother⟩ := writeConfigVect_file hwrite
  have hfileLines : FileLines (fileText cfgLines'.dropLast) cfgLines'.dropLast :=
    fileLines_fileText fun l hl => hlines l (List.dropLast_subset _ hl)
  have hget : getlines (fileText cfgLines'.dropLast) = cfgLines' := by
    rw [hfileLines.getlines_closed (closed_fileText _)]
    exact List.dropLast_append_getLast? [] hlast
  unfold readConfigVect at hread ⊢
  dsimp only at hread ⊢
  split at hread
  · cases hread
    rw [hfile]
    dsimp only
    rw [hget]
  · rename_i hnone
    obtain ⟨text, htext, heq⟩ := Option.map_eq_some_iff.mp hread
    cases heq
    -- the other place is still empty
    have hne : appendExt (replaceHome home path) ≠
        replaceHome home (cfgDir ++ appendExt (replaceHome home path)) := fun h => by
      rw [← h, hnone] at htext
      cases htext
    rw [hother _ hne, hnone]
    dsimp only
    rw [hfile, Option.map_some, hget]

end Config

/-- **Reading and writing back** keeps the lines of the config and all other files exactly if the text
is empty or ends with a line break. -/
theorem configText_iff (fs fs' : FileSys) (home path path' : Str) (cfgLines : List Str)
    (hread : readConfigVect fs home path = some (path', cfgLines))
    (hwrite : (writeConfigVect fs path' cfgLines).1 = some fs') :
    ∃ text text', fs.file path' = some text ∧ fs'.file path' = some text' ∧
      ((∃ ls, FileLines text ls ∧ FileLines text' ls) ↔
        text = [] ∨ text.getLast? = some '\n') := by
  obtain ⟨text, htext, rfl⟩ := readConfigVect_eq hread
  obtain ⟨hfile, -⟩ := writeConfigVect_file hwrite
  refine ⟨text, _, htext, hfile, ?_⟩
  have hclosed : Closed text ↔ text = [] ∨ text.getLast? = some '\n' := by
    unfold Closed
    cases hlast : text.getLast? with
    | none => simp [List.getLast?_eq_none_iff.mp hlast]
    | some c =>
      have hne : text ≠ [] := by
        rintro rfl
        cases hlast
      simp [hne]
  rw [← hclosed]
  constructor
  · rintro ⟨ls, hls, hls'⟩
    exact (fileText_getlines hls).mp hls'
  · intro h
    obtain ⟨ls, hls⟩ := exists_fileLines text
    exact ⟨ls, hls, (fileText_getlines hls).mpr h⟩

/-- One file that can be written. -/
def FileSys.single (path text : Str) : FileSys where
  file p := if p = path then some text else none
  canWrite _ := true

theorem readConfigVect_single (text : Str) :
    readConfigVect (.single "game.conf".toList text) "/home".toList "game".toList =
      some ("game.conf".toList, getlines text) := rfl

theorem configText_example : ∃ text text',
    (FileSys.single "game.conf".toList "game\nHP\n".toList).file "game.conf".toList = some text ∧
      (some (fileText (getlines "game\nHP\n".toList).dropLast)) = some text' ∧
      ((∃ ls, FileLines text ls ∧ FileLines text' ls) ↔ text = [] ∨ text.getLast? = some '\n') := by
  obtain ⟨text, text', htext, htext', hiff⟩ := configText_iff
    (FileSys.single "game.conf".toList "game\nHP\n".toList) _ "/home".toList "game".toList _ _
    (readConfigVect_single _) rfl
  exact ⟨text, text', htext, htext', hiff⟩

/-- The last value has no line break behind it. -/
theorem configText_not : ¬ ∀ (fs fs' : FileSys) (home path path' : Str) (cfgLines : List Str),
    readConfigVect fs home path = some (path', cfgLines) →
    (writeConfigVect fs path' cfgLines).1 = some fs' →
    ∃ text text', fs.file path' = some text ∧ fs'.file path' = some text' ∧
      ∃ ls, FileLines text ls ∧ FileLines text' ls := by
  intro hall
  have hread := readConfigVect_single "game\nHP".toList
  obtain ⟨text, text', htext, htext', ls, hls, hls'⟩ := hall _ _ _ _ _ _ hread rfl
  obtain rfl : "game\nHP".toList = text := Option.some.inj htext
  have hlines : FileLines "game\nHP".toList ["game".toList, "HP".toList] :=
    .line (l := "game".toList) (by decide) (.last (by decide) (by decide))
  have hget : getlines "game\nHP".toList = ["game".toList, "HP".toList] :=
    (hlines.getlines_open (by unfold Closed; decide)).1
  obtain rfl : fileText (getlines "game\nHP".toList).dropLast = text' := Option.some.inj htext'
  rw [hget] at hls'
  have hwritten : FileLines (fileText ["game".toList]) ["game".toList] :=
    fileLines_fileText (by decide)
  have heq := (hls.unique hlines).symm.trans (hls'.unique hwritten)
  exact absurd heq (by decide)

end UgTrain
