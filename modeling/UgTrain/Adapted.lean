import UgTrain.Readapt
import UgTrain.TakeOver

/-!
# The adapted config

`readConfig_adapted`: reading the file that `take_over_config` has written gives the config that was
read before, with the new sizes and code addresses of its classes, apart from their libraries, from the
path of the game and from `adapt_required`.

* `Adaption.lines` are the lines of the adapted config, each one from the line that was read in its
  place. Reading them gives the adapted config (`readLines_adapt`).
* `Adaption.Written` is what `takeOverLines` leaves in the lines: the same (`lines_eq`).
* `readConfig_takenOver` is about these lines. `write_config_vect` drops the last one, which is the empty
  one behind the last line break: so the file has to end with one.
-/

namespace UgTrain

open CLib

/-! ## The lines of an adapted config -/

namespace Adaption

/-- The line that stands for one that was read. -/
def lineAt (A : Adaption) (n lnr : Nat) (s : ConfigState) (line : Str) : Str :=
  match s.lineType n line with
  | some .dynmemStart => if s.opt.dynmems.length ∈ A.refs then A.line s.opt.dynmems.length else line
  | some .adpReq => if lnr = A.adpReqLine then "adapt_required 0".toList else line
  | some .gameBinpath =>
    if lnr = A.binpathLine then A.path.elim line fun path => "game_binpath ".toList ++ path else line
  | _ => line

def lines (A : Adaption) (fl : FloatLib) (n : Nat) (cfgPath : Str) (lnr : Nat) (s : ConfigState) :
    List Str → List Str
  | [] => []
  | line :: rest => A.lineAt n lnr s line ::
    match s.readLine fl n cfgPath lnr line with
    | some (.ok s') => A.lines fl n cfgPath (lnr + 1) s' rest
    | _ => rest

/-- The lines are those of the config that has been read. -/
structure Fits (A : Adaption) (s : ConfigState) : Prop where
  line : ∀ d ∈ A.refs, ∀ dm, s.opt.dynmems[d]? = some dm → A.line d = DynMemEntry.line { dm with
    memSize := (A.adp d).1.setWidth 64
    codeAddr := (A.adp d).2 }
  adpReqLine : A.adpReqLine = s.adpReqLine
  binpathLine : A.binpathLine = s.binpathLine
  path : ∀ path ∈ A.path, (∀ c ∈ path, isNameChar c = true) ∧ cppBasename path = s.procName

/-- What is between the lines of both configs. -/
structure Between (A : Adaption) (lnr : Nat) (path : Str) (adpRequired : Bool) (s : ConfigState) :
    Prop where
  path_eq : path = if A.binpathLine < lnr then A.path.getD s.gameBinpath else s.gameBinpath
  adp_eq : lnr ≤ A.adpReqLine → adpRequired = s.adpRequired
  binpathLine : s.binpathLine < lnr
  adpReqLine : s.adpReqLine < lnr

/-- `lines'` is what is written for the lines from `lnr` on. -/
structure Written (A : Adaption) (fl : FloatLib) (n : Nat) (cfgPath : Str) (lnr : Nat)
    (s : ConfigState) (lines lines' : List Str) : Prop where
  length : lines'.length = lines.length
  dynmem : ∀ m k, (s.classLines fl n cfgPath lnr lines)[m]? = some (lnr + k) →
    s.opt.dynmems.length + m ∈ A.refs → lines'[k]? = some (A.line (s.opt.dynmems.length + m))
  adpReq : ∀ k, lnr + k = A.adpReqLine → lines'[k]? = some "adapt_required 0".toList
  binpath : ∀ k, lnr + k = A.binpathLine → ∀ p ∈ A.path,
    lines'[k]? = some ("game_binpath ".toList ++ p)
  kept : ∀ k, (∀ m, s.opt.dynmems.length + m ∈ A.refs →
    (s.classLines fl n cfgPath lnr lines)[m]? ≠ some (lnr + k)) → lnr + k ≠ A.adpReqLine →
    (lnr + k = A.binpathLine → A.path = none) → lines'[k]? = lines[k]?

end Adaption

namespace ConfigState

section Lines

variable {A : Adaption} {fl : FloatLib} {s s' sf : ConfigState} {cfgPath line name path : Str}
  {start lnr n chunk : Nat} {type : NameType} {lines : List Str} {adpRequired : Bool}

theorem idents_length {r r' : CfgReader} (h : idents r = idents r') :
    r.opt.dynmems.length = r'.opt.dynmems.length := by
  have hlen := congrArg List.length h
  rwa [idents, idents, List.length_map, List.length_map] at hlen

/-- A class that has been read keeps its name and its stack offset. -/
theorem extends_class {d : Nat} {dm : DynMemEntry} (h : s.Extends lnr s')
    (hdm : s.opt.dynmems[d]? = some dm) : ∃ dm', s'.opt.dynmems[d]? = some dm' ∧
      dm'.name = dm.name ∧ dm'.stackOffs = dm.stackOffs := by
  have hid : (idents s.toCfgReader)[d]? = some (dm.name, dm.stackOffs) := by
    rw [idents, List.getElem?_map, hdm]
    rfl
  obtain ⟨hlt, hget⟩ := List.getElem?_eq_some_iff.mp hid
  have hid' := List.prefix_iff_getElem?.mp h.idents d hlt
  rw [hget, idents, List.getElem?_map] at hid'
  obtain ⟨dm', hdm', heq⟩ := Option.map_eq_some_iff.mp hid'
  exact ⟨dm', hdm', congrArg Prod.fst heq, congrArg Prod.snd heq⟩

/-- The line of a class that is written anew is one of a class. -/
theorem newClass_line {ret line' : Str} (hA : A.Fits sf) (hrest : s'.Extends (lnr + 1) sf)
    (href : s.opt.dynmems.length ∈ A.refs)
    (h : readNamed fl cfgPath lnr s .dynmemStart ret line' start = .ok s') :
    ∃ name es, IsName name ∧ A.line s.opt.dynmems.length = DynMemEntry.line {
      DynMemEntry.new name es with
        memSize := (A.adp s.opt.dynmems.length).1.setWidth 64
        codeAddr := (A.adp s.opt.dynmems.length).2 } ∧
      s' = { s.pushClass (.new name es) with numLibs := s.numLibs + 1 } ∧
      es.lib.map (fun lib => { lib with name := [] }) = some ⟨s.numLibs, []⟩ := by
  obtain ⟨h, -, -⟩ := outside_eq h
  obtain ⟨⟨name, behind⟩, hname, h⟩ := Run.bind_eq_ok.mp h
  obtain ⟨es, hes, h⟩ := Run.bind_eq_ok.mp h
  cases h
  refine ⟨name, es, nameAt_isName hname, ?_, rfl, ?_⟩
  · have hpush : (s.opt.dynmems ++ [DynMemEntry.new name es])[s.opt.dynmems.length]? =
        some (.new name es) := List.getElem?_concat_length
    obtain ⟨dm, hdm, hdmName, hdmStack⟩ := extends_class hrest hpush
    rw [hA.line _ href dm hdm]
    unfold DynMemEntry.line
    dsimp only
    rw [hdmName, hdmStack]
  · obtain ⟨⟨memSize, start₁⟩, -, hes⟩ := Run.bind_eq_ok.mp hes
    obtain ⟨⟨codeAddr, start₂⟩, -, hes⟩ := Run.bind_eq_ok.mp hes
    obtain ⟨⟨stackOffs, start₃⟩, -, hes⟩ := Run.bind_eq_ok.mp hes
    cases hes
    rfl

/-- The line of a class that is written anew. -/
theorem readLine_newClass {ret line' : Str} (hA : A.Fits sf) (hrest : s'.Extends (lnr + 1) sf)
    (href : s.opt.dynmems.length ∈ A.refs)
    (h : readNamed fl cfgPath lnr s .dynmemStart ret line' start = .ok s') :
    readLine fl n cfgPath lnr (A.config path adpRequired s) (A.line s.opt.dynmems.length) =
      some (.ok (A.config path adpRequired s')) := by
  obtain ⟨-, hd, hp⟩ := outside_eq h
  obtain ⟨name, es, hname, hline, rfl, hes⟩ := newClass_line hA hrest href h
  have hlib : (DynMemEntry.new name es).lib.map (fun lib => { lib with name := [] }) =
      some ⟨s.numLibs, []⟩ := hes
  have hsize : ((A.adp s.opt.dynmems.length).1.setWidth 64 : BitVec 64).toNat < 2 ^ 32 := by
    rw [BitVec.toNat_setWidth, Nat.mod_eq_of_lt (by omega)]
    exact (A.adp s.opt.dynmems.length).1.isLt
  have hdynmem : A.dynmem s.opt.dynmems.length (.new name es) = .new name
      ⟨(A.adp s.opt.dynmems.length).1.setWidth 64, (A.adp s.opt.dynmems.length).2,
        (A.adp s.opt.dynmems.length).2, es.stackOffs, some ⟨s.numLibs, []⟩⟩ := by
    unfold Adaption.dynmem
    rw [if_pos href, hlib]
    rfl
  have hd' : (A.config path adpRequired s).inDynmem = none := hd
  have hp' : (A.config path adpRequired s).inPtrmem = none := hp
  rw [hline, readLine_class hname hsize hd' hp']
  unfold pushClass Adaption.config Adaption.reader
  simp only [List.mapIdx_append, List.length_mapIdx, List.mapIdx_cons, List.mapIdx_nil, Nat.zero_add,
    hdynmem]
  rfl

/-- The line of the path is the last one that names a path, and so is the one of `adapt_required`. -/
theorem line_binpath (hrest : s'.Extends (lnr + 1) sf) (hlt : s.binpathLine < lnr)
    (hstep : GameStep lnr type s s') :
    if type = .gameBinpath then lnr ≤ sf.binpathLine else lnr ≠ sf.binpathLine := by
  have hline := hrest.binpathLine
  rw [hstep.binpathLine] at hline
  split at hline <;> rename_i htype
  · rw [if_pos htype]
    omega
  · rw [if_neg htype]
    omega

theorem line_adpReq (hrest : s'.Extends (lnr + 1) sf) (hlt : s.adpReqLine < lnr)
    (hstep : GameStep lnr type s s') :
    if type = .adpReq then lnr ≤ sf.adpReqLine else lnr ≠ sf.adpReqLine := by
  have hline := hrest.adpReqLine
  rw [hstep.adpReqLine] at hline
  split at hline <;> rename_i htype
  · rw [if_pos htype]
    omega
  · rw [if_neg htype]
    omega

theorem gameStep_lines (hb : s.binpathLine < lnr) (ha : s.adpReqLine < lnr)
    (hstep : GameStep lnr type s s') : s'.binpathLine < lnr + 1 ∧ s'.adpReqLine < lnr + 1 := by
  rw [hstep.binpathLine, hstep.adpReqLine]
  split <;> split <;> omega

/-- What is between the lines behind a line that does `hstep`. -/
theorem between_step {path' : Str} {b' : Bool} (hA : A.Fits sf) (hrest : s'.Extends (lnr + 1) sf)
    (hs : A.Between lnr path adpRequired s) (hstep : GameStep lnr type s s')
    (hpath : type ≠ .gameBinpath → path' = path)
    (hbin : type = .gameBinpath → path' =
      if lnr = A.binpathLine then A.path.getD s'.gameBinpath else s'.gameBinpath)
    (hadp : type ≠ .adpReq → b' = adpRequired)
    (hreq : type = .adpReq → b' = if lnr = A.adpReqLine then adpRequired else s'.adpRequired) :
    A.Between (lnr + 1) path' b' s' ∧ (A.adpReqLine ≤ lnr → b' = adpRequired) := by
  have hbinLine := line_binpath hrest hs.binpathLine hstep
  have hreqLine := line_adpReq hrest hs.adpReqLine hstep
  rw [← hA.binpathLine] at hbinLine
  rw [← hA.adpReqLine] at hreqLine
  obtain ⟨hb, ha⟩ := gameStep_lines hs.binpathLine hs.adpReqLine hstep
  refine ⟨⟨?_, fun hle => ?_, hb, ha⟩, fun hle => ?_⟩
  · by_cases htype : type = .gameBinpath
    · rw [if_pos htype] at hbinLine
      rw [hbin htype]
      have hiff : A.binpathLine < lnr + 1 ↔ lnr = A.binpathLine := by omega
      simp only [hiff]
    · rw [if_neg htype] at hbinLine
      rw [hpath htype, hstep.gameBinpath htype, hs.path_eq]
      have hiff : A.binpathLine < lnr + 1 ↔ A.binpathLine < lnr := by omega
      simp only [hiff]
  · by_cases htype : type = .adpReq
    · rw [hreq htype, if_neg (by omega)]
    · rw [hadp htype, hstep.adpRequired htype]
      exact hs.adp_eq (by omega)
  · by_cases htype : type = .adpReq
    · rw [if_pos htype] at hreqLine
      rw [hreq htype, if_pos (by omega)]
    · exact hadp htype

/-- A line that is kept. -/
theorem readLine_kept {ret line' : Str} (hA : A.Fits sf) (hrest : s'.Extends (lnr + 1) sf)
    (hs : A.Between lnr path adpRequired s)
    (hnew : type = .dynmemStart ∨ type = .dynmemGrow ∧ s.inDynmem = none →
      s.opt.dynmems.length ∉ A.refs)
    (hpath : type = .gameBinpath → lnr = A.binpathLine → A.path = none)
    (hadp : type = .adpReq → lnr ≠ A.adpReqLine)
    (h : readNamed fl cfgPath lnr s type ret line' start = .ok s') :
    ∃ path' b', readNamed fl cfgPath lnr (A.config path adpRequired s) type ret line' start =
      .ok (A.config path' b' s') ∧ A.Between (lnr + 1) path' b' s' ∧
      (A.adpReqLine ≤ lnr → b' = adpRequired) := by
  obtain ⟨t', ht, hf⟩ := readNamed_adapt path adpRequired hnew h
  have hstep := readNamed_game h
  have hbinLine := line_binpath hrest hs.binpathLine hstep
  have hreqLine := line_adpReq hrest hs.adpReqLine hstep
  rw [← hA.binpathLine] at hbinLine
  rw [← hA.adpReqLine] at hreqLine
  refine ⟨t'.gameBinpath, t'.adpRequired, ht.trans (congrArg _ hf.config),
    between_step hA hrest hs hstep hf.path_eq (fun htype => ?_) hf.adp_eq fun htype => ?_⟩
  · rw [if_pos htype] at hbinLine
    have hold := hs.path_eq
    rw [if_neg (by omega)] at hold
    rw [hf.path_read hold]
    split
    · rename_i hline
      rw [hpath htype hline]
      rfl
    · rfl
  · rw [if_pos htype] at hreqLine
    rw [if_neg (hadp htype)]
    exact hf.adp_read (hs.adp_eq hreqLine)

/-- **A line of the adapted config** does what the line that was read in its place has done. -/
theorem readLine_adapt (hA : A.Fits sf) (hrest : s'.Extends (lnr + 1) sf)
    (hs : A.Between lnr path adpRequired s)
    (hnew : 0 ∈ s.addedLine n lnr line → s.opt.dynmems.length ∉ A.refs)
    (h : readLine fl n cfgPath lnr s line = some (.ok s')) :
    ∃ path' b', readLine fl n cfgPath lnr (A.config path adpRequired s) (A.lineAt n lnr s line) =
      some (.ok (A.config path' b' s')) ∧ A.Between (lnr + 1) path' b' s' ∧
      (A.adpReqLine ≤ lnr → b' = adpRequired) := by
  rcases readLine_cases h with ⟨rfl, htype, hall⟩ | ⟨type, ret, line', start, htype, h, hall⟩
  · have hline : A.lineAt n lnr s' line = line := by
      unfold Adaption.lineAt
      rw [htype]
    have hstep : GameStep lnr .regular s' s' := gameStep_same (by decide) (by decide) rfl
    rw [hline]
    exact ⟨path, adpRequired, hall _, between_step hA hrest hs hstep (fun _ => rfl)
      (fun h => by cases h) (fun _ => rfl) fun h => by cases h⟩
  have hstep := readNamed_game h
  by_cases hcls : type = .dynmemStart ∧ s.opt.dynmems.length ∈ A.refs
  · obtain ⟨rfl, href⟩ := hcls
    have hline : A.lineAt n lnr s line = A.line s.opt.dynmems.length := by
      unfold Adaption.lineAt
      rw [htype]
      exact if_pos href
    rw [hline]
    exact ⟨path, adpRequired, readLine_newClass hA hrest href h, between_step hA hrest hs hstep
      (fun _ => rfl) (fun h => by cases h) (fun _ => rfl) fun h => by cases h⟩
  by_cases hreq : type = .adpReq ∧ lnr = A.adpReqLine
  · obtain ⟨rfl, hlnr⟩ := hreq
    have hline : A.lineAt n lnr s line = "adapt_required 0".toList := by
      unfold Adaption.lineAt
      rw [htype]
      exact if_pos hlnr
    obtain ⟨hgame, hd, hp⟩ := outside_eq h
    obtain ⟨⟨value, behind⟩, -, hgame⟩ := Run.bind_eq_ok.mp hgame
    cases hgame
    have hd' : (A.config path adpRequired s).inDynmem = none := hd
    have hp' : (A.config path adpRequired s).inPtrmem = none := hp
    rw [hline, readLine_adpReq hd' hp']
    exact ⟨path, adpRequired, rfl, between_step hA hrest hs hstep (fun _ => rfl)
      (fun h => by cases h) (fun h => absurd rfl h) fun _ => (if_pos hlnr).symm⟩
  by_cases hbin : type = .gameBinpath ∧ lnr = A.binpathLine ∧ A.path.isSome
  · obtain ⟨rfl, hlnr, hsome⟩ := hbin
    obtain ⟨p, hp⟩ := Option.isSome_iff_exists.mp hsome
    have hline : A.lineAt n lnr s line = "game_binpath ".toList ++ p := by
      unfold Adaption.lineAt
      rw [htype]
      dsimp only
      rw [if_pos hlnr, hp]
      rfl
    obtain ⟨hgame, hd, hptr⟩ := outside_eq h
    obtain ⟨⟨old, behind⟩, -, hgame⟩ := Run.bind_eq_ok.mp hgame
    dsimp only at hgame
    split at hgame
    · cases hgame
    cases hgame
    obtain ⟨hchars, hbase⟩ := hA.path p hp
    have hproc : cppBasename p = (A.config path adpRequired s).procName := hbase.trans hrest.procName
    have hd' : (A.config path adpRequired s).inDynmem = none := hd
    have hptr' : (A.config path adpRequired s).inPtrmem = none := hptr
    rw [hline, readLine_binpath hchars hproc hd' hptr']
    refine ⟨p, adpRequired, rfl, between_step hA hrest hs hstep (fun h => absurd rfl h)
      (fun _ => ?_) (fun _ => rfl) fun h => by cases h⟩
    rw [if_pos hlnr, hp]
    rfl
  · have hline : A.lineAt n lnr s line = line := by
      unfold Adaption.lineAt
      rw [htype]
      split
      · rename_i heq
        cases heq
        exact if_neg fun href => hcls ⟨rfl, href⟩
      · rename_i heq
        cases heq
        exact if_neg fun hlnr => hreq ⟨rfl, hlnr⟩
      · rename_i heq
        cases heq
        by_cases hlnr : lnr = A.binpathLine
        · have hnone : A.path = none :=
            Option.not_isSome_iff_eq_none.mp fun hsome => hbin ⟨rfl, hlnr, hsome⟩
          rw [if_pos hlnr, hnone]
          rfl
        · exact if_neg hlnr
      · rfl
    have hold : type = .dynmemStart ∨ type = .dynmemGrow ∧ s.inDynmem = none →
        s.opt.dynmems.length ∉ A.refs := by
      rintro (rfl | ⟨rfl, hd⟩)
      · exact fun href => hcls ⟨rfl, href⟩
      · refine hnew ?_
        unfold addedLine
        rw [htype]
        dsimp only
        rw [if_pos hd]
        exact List.mem_singleton_self 0
    obtain ⟨path', b', ht, hb⟩ := readLine_kept hA hrest hs hold
      (fun ht hl => Option.not_isSome_iff_eq_none.mp fun hsome => hbin ⟨ht, hl, hsome⟩)
      (fun ht hl => hreq ⟨ht, hl⟩) h
    rw [hline]
    exact ⟨path', b', (hall (A.config path adpRequired s) rfl).trans (congrArg some ht), hb⟩

/-! ### All lines -/

theorem addedLine_length (h : readLine fl n cfgPath lnr s line = some (.ok s')) :
    s'.opt.dynmems.length = s.opt.dynmems.length + (s.addedLine n lnr line).length := by
  rcases readLine_cases h with ⟨rfl, htype, -⟩ | ⟨type, ret, line', start, htype, h, -⟩
  · simp [addedLine, htype]
  · have hids := readNamed_idents h
    have hadded : (s.addedLine n lnr line).length = if s.Adds type then 1 else 0 := by
      unfold addedLine
      rw [htype]
      cases type with
      | dynmemStart => simp [Adds]
      | dynmemGrow => cases hd : s.inDynmem <;> simp [Adds, hd]
      | regular | check | checkObj | define | useGbt | noPreload | dynmemConst | dynmemEnd | dynmemFile
      | ptrmemStart | ptrmemEnd | dump | adpScript | adpReq | gameCall | gamePath | gameBinpath
      | gameParams => simp [Adds]
    rw [hadded]
    split at hids
    · obtain ⟨x, hx⟩ := hids
      have hlen := congrArg List.length hx
      simp only [idents, List.length_append, List.length_map, List.length_singleton] at hlen
      rw [hlen, if_pos ‹_›]
    · rw [idents_length hids, if_neg ‹_›, Nat.add_zero]

/-- A line adds one class at most. -/
theorem mem_addedLine {x : Nat} (h : x ∈ s.addedLine n lnr line) :
    s.addedLine n lnr line = [x] ∧ (x = 0 ∨ x = lnr) := by
  unfold addedLine at h ⊢
  split at h
  · obtain rfl := List.mem_singleton.mp h
    exact ⟨rfl, .inr rfl⟩
  · split at h
    · obtain rfl := List.mem_singleton.mp h
      rename_i hd
      exact ⟨if_pos hd, .inl rfl⟩
    · cases h
  · cases h

theorem classLines_cons (h : readLine fl n cfgPath lnr s line = some (.ok s')) :
    classLines fl n cfgPath lnr s (line :: lines) =
      s.addedLine n lnr line ++ classLines fl n cfgPath (lnr + 1) s' lines := by
  rw [classLines, h]

theorem classLines_later (h : readLine fl n cfgPath lnr s line = some (.ok s')) (k : Nat) :
    (classLines fl n cfgPath lnr s (line :: lines))[(s.addedLine n lnr line).length + k]? =
      (classLines fl n cfgPath (lnr + 1) s' lines)[k]? := by
  rw [classLines_cons h, List.getElem?_append_right (by omega), Nat.add_sub_cancel_left]

theorem classLines_first {x : Nat} (h : readLine fl n cfgPath lnr s line = some (.ok s'))
    (hx : x ∈ s.addedLine n lnr line) :
    (classLines fl n cfgPath lnr s (line :: lines))[0]? = some x := by
  rw [classLines_cons h, (mem_addedLine hx).1]
  rfl

/-- **The lines of the adapted config** give the adapted config. It still requires adaption if a line
before the last `adapt_required` says so. -/
theorem readLines_adapt (hA : A.Fits sf) (hs : A.Between lnr path adpRequired s)
    (hstart : ∀ k, (classLines fl n cfgPath lnr s lines)[k]? = some 0 →
      s.opt.dynmems.length + k ∉ A.refs)
    (h : readLines fl n cfgPath lnr s lines = some (.ok sf)) :
    ∃ b', readLines fl n cfgPath lnr (A.config path adpRequired s) (A.lines fl n cfgPath lnr s lines) =
      some (.ok (A.config (A.path.getD sf.gameBinpath) b' sf)) ∧
      if lnr ≤ A.adpReqLine then ∃ s₁, readLines fl n cfgPath lnr s (lines.take (A.adpReqLine - lnr)) =
        some (.ok s₁) ∧ b' = s₁.adpRequired
      else b' = adpRequired := by
  induction lines generalizing lnr s path adpRequired with
  | nil =>
    cases h
    have hpath : path = A.path.getD sf.gameBinpath := by
      rw [hs.path_eq, if_pos (hA.binpathLine ▸ hs.binpathLine)]
    refine ⟨adpRequired, by rw [← hpath]; rfl, ?_⟩
    rw [if_neg (hA.adpReqLine ▸ Nat.not_le.mpr hs.adpReqLine)]
  | cons line lines ih =>
    obtain ⟨s', hline, hlines⟩ := readLines_cons h
    obtain ⟨path', b, hline', hs', hb⟩ := readLine_adapt hA (readLines_extends hlines) hs
      (fun h0 => hstart 0 (classLines_first hline h0)) hline
    obtain ⟨b', hread, hbefore⟩ := ih hs' (fun k hk => by
      rw [addedLine_length hline, Nat.add_assoc]
      exact hstart _ ((classLines_later hline k).trans hk)) hlines
    have hall : A.lines fl n cfgPath lnr s (line :: lines) =
        A.lineAt n lnr s line :: A.lines fl n cfgPath (lnr + 1) s' lines := by
      rw [Adaption.lines, hline]
    refine ⟨b', ?_, ?_⟩
    · rw [hall, readLines, hline']
      exact hread
    · by_cases hle : lnr ≤ A.adpReqLine
      · rw [if_pos hle]
        by_cases heq : lnr = A.adpReqLine
        · rw [if_neg (by omega)] at hbefore
          refine ⟨s, by rw [← heq, Nat.sub_self]; rfl, ?_⟩
          rw [hbefore, hb (by omega), hs.adp_eq hle]
        · rw [if_pos (by omega)] at hbefore
          obtain ⟨s₁, hs₁, hb₁⟩ := hbefore
          refine ⟨s₁, ?_, hb₁⟩
          rw [show A.adpReqLine - lnr = A.adpReqLine - (lnr + 1) + 1 by omega, List.take_succ_cons,
            readLines, hline]
          exact hs₁
      · rw [if_neg hle]
        rw [if_neg (by omega)] at hbefore
        rw [hbefore, hb (by omega)]

/-! ### The lines that are written -/

theorem classLines_bounds {x : Nat} (h : x ∈ classLines fl n cfgPath lnr s lines) :
    x = 0 ∨ lnr ≤ x := by
  induction lines generalizing lnr s with
  | nil => cases h
  | cons line lines ih =>
    rw [classLines] at h
    split at h
    · rcases List.mem_append.mp h with h | h
      · exact (mem_addedLine h).2.imp_right Eq.ge
      · rcases ih h with h | h
        · exact .inl h
        · exact .inr (by omega)
    · cases h

/-- The class of a line is the one that the line adds. -/
theorem classLines_here {m : Nat} (hlnr : lnr ≠ 0)
    (h : readLine fl n cfgPath lnr s line = some (.ok s'))
    (hm : (classLines fl n cfgPath lnr s (line :: lines))[m]? = some lnr) :
    m = 0 ∧ s.lineType n line = some .dynmemStart := by
  by_cases hlt : m < (s.addedLine n lnr line).length
  · rw [classLines_cons h, List.getElem?_append_left hlt] at hm
    have hmem := List.mem_of_getElem? hm
    unfold addedLine at hlt hmem
    split at hlt
    · rename_i htype
      exact ⟨Nat.lt_one_iff.mp hlt, htype⟩
    · rename_i htype
      rw [htype] at hmem
      dsimp only at hmem
      split at hmem
      · exact absurd (List.mem_singleton.mp hmem) hlnr
      · cases hmem
    · exact absurd hlt (Nat.not_lt_zero _)
  · obtain ⟨k, rfl⟩ := Nat.exists_eq_add_of_le (Nat.not_lt.mp hlt)
    rw [classLines_later h] at hm
    have := classLines_bounds (List.mem_of_getElem? hm)
    omega

theorem readLine_game (h : readLine fl n cfgPath lnr s line = some (.ok s')) :
    GameStep lnr ((s.lineType n line).getD .regular) s s' := by
  rcases readLine_cases h with ⟨rfl, htype, -⟩ | ⟨type, ret, line', start, htype, h, -⟩
  · rw [htype]
    exact gameStep_same (by decide) (by decide) rfl
  · rw [htype]
    exact readNamed_game h

theorem written_tail {line' : Str} {lines' : List Str}
    (h : readLine fl n cfgPath lnr s line = some (.ok s'))
    (hw : A.Written fl n cfgPath lnr s (line :: lines) (line' :: lines')) :
    A.Written fl n cfgPath (lnr + 1) s' lines lines' := by
  have hlen := addedLine_length h
  refine ⟨Nat.succ.inj hw.length, fun m k hm href => ?_, fun k hk => ?_, fun k hk p hp => ?_,
    fun k hcls hreq hbin => ?_⟩
  · rw [hlen, Nat.add_assoc] at href ⊢
    refine hw.dynmem _ (k + 1) ?_ href
    rw [classLines_later h, hm, Nat.add_assoc, Nat.add_comm 1 k]
  · exact hw.adpReq (k + 1) (by omega)
  · exact hw.binpath (k + 1) (by omega) p hp
  · refine hw.kept (k + 1) (fun m href hm => ?_) (by omega) fun heq => hbin (by omega)
    by_cases hlt : m < (s.addedLine n lnr line).length
    · rw [classLines_cons h, List.getElem?_append_left hlt] at hm
      have := (mem_addedLine (List.mem_of_getElem? hm)).2
      omega
    · obtain ⟨j, rfl⟩ := Nat.exists_eq_add_of_le (Nat.not_lt.mp hlt)
      rw [classLines_later h] at hm
      refine hcls j ?_ (by rw [hm, Nat.add_assoc, Nat.add_comm 1 k])
      rw [hlen, Nat.add_assoc]
      exact href

theorem written_head {line' : Str} {lines' : List Str} (hA : A.Fits sf)
    (hrest : s'.Extends (lnr + 1) sf) (hlnr : lnr ≠ 0) (hs : s.binpathLine < lnr)
    (hs' : s.adpReqLine < lnr) (h : readLine fl n cfgPath lnr s line = some (.ok s'))
    (hw : A.Written fl n cfgPath lnr s (line :: lines) (line' :: lines')) :
    line' = A.lineAt n lnr s line := by
  have hkept : (∀ m, s.opt.dynmems.length + m ∈ A.refs →
      (classLines fl n cfgPath lnr s (line :: lines))[m]? ≠ some lnr) → lnr ≠ A.adpReqLine →
      (lnr = A.binpathLine → A.path = none) → line' = line := fun hcls hreq hbin =>
    Option.some.inj (hw.kept 0 hcls hreq hbin)
  have hstep := readLine_game h
  have hbinLine := line_binpath hrest hs hstep
  have hreqLine := line_adpReq hrest hs' hstep
  rw [← hA.binpathLine] at hbinLine
  rw [← hA.adpReqLine] at hreqLine
  have hother : s.lineType n line ≠ some .dynmemStart → ∀ m, s.opt.dynmems.length + m ∈ A.refs →
      (classLines fl n cfgPath lnr s (line :: lines))[m]? ≠ some lnr := fun hne m _ hm =>
    hne (classLines_here hlnr h hm).2
  have hget : ∀ type, type ≠ .regular → (s.lineType n line).getD .regular = type →
      s.lineType n line = some type := by
    intro type hne hg
    cases htype : s.lineType n line with
    | none =>
      rw [htype] at hg
      exact absurd hg.symm hne
    | some type' =>
      rw [htype] at hg
      exact congrArg some hg
  unfold Adaption.lineAt
  split
  · rename_i htype
    rw [htype, if_neg (by decide)] at hbinLine hreqLine
    split
    · rename_i href
      have hadded : lnr ∈ s.addedLine n lnr line := by
        unfold addedLine
        rw [htype]
        exact List.mem_singleton_self lnr
      exact Option.some.inj (hw.dynmem 0 0 (classLines_first h hadded) href)
    · rename_i hnot
      refine hkept (fun m href hm => ?_) hreqLine fun hl => absurd hl hbinLine
      obtain ⟨rfl, -⟩ := classLines_here hlnr h hm
      exact hnot href
  · rename_i htype
    rw [htype, if_neg (by decide)] at hbinLine
    split
    · rename_i hl
      exact Option.some.inj (hw.adpReq 0 hl)
    · rename_i hl
      exact hkept (hother (by rw [htype]; decide)) hl fun hl => absurd hl hbinLine
  · rename_i htype
    rw [htype, if_neg (by decide)] at hreqLine
    split
    · rename_i hl
      cases hp : A.path with
      | none => exact hkept (hother (by rw [htype]; decide)) hreqLine fun _ => hp
      | some p => exact Option.some.inj (hw.binpath 0 hl p hp)
    · rename_i hl
      exact hkept (hother (by rw [htype]; decide)) hreqLine fun h => absurd h hl
  · rename_i hnotStart hnotReq hnotBin
    rw [if_neg fun hg => hnotReq (hget _ (by decide) hg)] at hreqLine
    rw [if_neg fun hg => hnotBin (hget _ (by decide) hg)] at hbinLine
    exact hkept (hother hnotStart) hreqLine fun hl => absurd hl hbinLine

/-- Lines that are written anew as the adaption says are those of the adapted config. -/
theorem lines_eq {lines' : List Str} (hA : A.Fits sf) (hlnr : lnr ≠ 0) (hs : s.binpathLine < lnr)
    (hs' : s.adpReqLine < lnr) (h : readLines fl n cfgPath lnr s lines = some (.ok sf))
    (hw : A.Written fl n cfgPath lnr s lines lines') :
    A.lines fl n cfgPath lnr s lines = lines' := by
  induction lines generalizing lnr s lines' with
  | nil => exact (List.eq_nil_of_length_eq_zero hw.length).symm
  | cons line lines ih =>
    cases lines' with
    | nil => exact absurd hw.length (Nat.zero_ne_add_one _)
    | cons line' lines' =>
      obtain ⟨s', hline, hlines⟩ := readLines_cons h
      rw [Adaption.lines, hline, ← written_head hA (readLines_extends hlines) hlnr hs hs' hline hw]
      refine congrArg _ (ih (Nat.succ_ne_zero _) ?_ ?_ hlines (written_tail hline hw))
      · exact (gameStep_lines hs hs' (readLine_game hline)).1
      · exact (gameStep_lines hs hs' (readLine_game hline)).2

/-- A line that stands for one that was read is one line. -/
theorem lineAt_noBreak (hA : A.Fits sf) (hrest : s'.Extends (lnr + 1) sf)
    (h : readLine fl n cfgPath lnr s line = some (.ok s')) (hline : '\n' ∉ line) :
    '\n' ∉ A.lineAt n lnr s line := by
  unfold Adaption.lineAt
  split
  · rename_i htype
    split
    · rename_i href
      rcases readLine_cases h with ⟨-, hnone, -⟩ | ⟨type, ret, line', start, htype', h, -⟩
      · cases hnone.symm.trans htype
      · cases htype'.symm.trans htype
        obtain ⟨name, es, hname, heq, -⟩ := newClass_line hA hrest href h
        rw [heq]
        exact line_noBreak hname
    · exact hline
  · split
    · decide +kernel
    · exact hline
  · split
    · cases hp : A.path with
      | none => exact hline
      | some p =>
        intro hm
        rcases List.mem_append.mp hm with hm | hm
        · exact absurd hm (by decide +kernel)
        · exact absurd ((hA.path p hp).1 _ hm) (by decide)
    · exact hline
  · exact hline

theorem lines_noBreak (hA : A.Fits sf) (h : readLines fl n cfgPath lnr s lines = some (.ok sf))
    (hlines : ∀ l ∈ lines, '\n' ∉ l) : ∀ l ∈ A.lines fl n cfgPath lnr s lines, '\n' ∉ l := by
  induction lines generalizing lnr s with
  | nil => exact fun l hl => absurd hl List.not_mem_nil
  | cons line lines ih =>
    obtain ⟨s', hline, hrest⟩ := readLines_cons h
    obtain ⟨hno, hlines⟩ := List.forall_mem_cons.mp hlines
    rw [Adaption.lines, hline]
    exact List.forall_mem_cons.mpr
      ⟨lineAt_noBreak hA (readLines_extends hrest) hline hno, ih hrest hlines⟩

/-- An empty line at the end stays. -/
theorem lines_getLast (h : lines.getLast? = some []) :
    (A.lines fl n cfgPath lnr s lines).getLast? = some [] := by
  induction lines generalizing lnr s with
  | nil => cases h
  | cons line lines ih =>
    cases lines with
    | nil =>
      obtain rfl : line = [] := Option.some.inj h
      rw [Adaption.lines]
      split <;> rfl
    | cons line' lines =>
      have h' : (line' :: lines).getLast? = some [] := by
        rw [← h, List.getLast?_cons_cons]
      have hne : A.lines fl n cfgPath (lnr + 1) s (line' :: lines) ≠ [] := by
        simp [Adaption.lines]
      rw [Adaption.lines]
      split
      · rw [List.getLast?_cons, ih h', Option.getD_some]
      · rw [List.getLast?_cons, h', Option.getD_some]

/-! ### Lines do not coincide -/

theorem classLines_inj {x i j : Nat} (hx : x ≠ 0)
    (h : readLines fl n cfgPath lnr s lines = some (.ok sf)) (hlnr : lnr ≠ 0)
    (hi : (classLines fl n cfgPath lnr s lines)[i]? = some x)
    (hj : (classLines fl n cfgPath lnr s lines)[j]? = some x) : i = j := by
  induction lines generalizing lnr s i j with
  | nil => cases hi
  | cons line lines ih =>
    obtain ⟨s', hline, hlines⟩ := readLines_cons h
    by_cases heq : x = lnr
    · subst heq
      rw [(classLines_here hlnr hline hi).1, (classLines_here hlnr hline hj).1]
    · have hlater : ∀ k, (classLines fl n cfgPath lnr s (line :: lines))[k]? = some x →
          ∃ k', k = (s.addedLine n lnr line).length + k' := by
        intro k hk
        refine Nat.exists_eq_add_of_le (Nat.not_lt.mp fun hlt => ?_)
        rw [classLines_cons hline, List.getElem?_append_left hlt] at hk
        exact (mem_addedLine (List.mem_of_getElem? hk)).2.elim hx heq
      obtain ⟨i, rfl⟩ := hlater i hi
      obtain ⟨j, rfl⟩ := hlater j hj
      rw [classLines_later hline] at hi hj
      rw [ih hlines (Nat.succ_ne_zero _) hi hj]

theorem readLines_length (h : readLines fl n cfgPath lnr s lines = some (.ok sf)) :
    sf.opt.dynmems.length =
      s.opt.dynmems.length + (classLines fl n cfgPath lnr s lines).length := by
  induction lines generalizing lnr s with
  | nil =>
    cases h
    rfl
  | cons line lines ih =>
    obtain ⟨s', hline, hlines⟩ := readLines_cons h
    rw [ih hlines, addedLine_length hline, classLines_cons hline, List.length_append, Nat.add_assoc]

/-- The line of a class is not the one of the path or of `adapt_required`, and these two differ. -/
theorem lines_apart (hlnr : lnr ≠ 0) (hb : s.binpathLine < lnr) (ha : s.adpReqLine < lnr)
    (h : readLines fl n cfgPath lnr s lines = some (.ok sf)) :
    (∀ x ∈ classLines fl n cfgPath lnr s lines, x ≠ 0 → sf.binpathLine ≠ x ∧ sf.adpReqLine ≠ x) ∧
      (sf.binpathLine = sf.adpReqLine → sf.binpathLine < lnr) := by
  induction lines generalizing lnr s with
  | nil =>
    cases h
    exact ⟨fun x hx => absurd hx List.not_mem_nil, fun _ => hb⟩
  | cons line lines ih =>
    obtain ⟨s', hline, hlines⟩ := readLines_cons h
    have hstep := readLine_game hline
    obtain ⟨hb', ha'⟩ := gameStep_lines hb ha hstep
    obtain ⟨hcls, hne⟩ := ih (Nat.succ_ne_zero _) hb' ha' hlines
    have hbinLine := line_binpath (readLines_extends hlines) hb hstep
    have hreqLine := line_adpReq (readLines_extends hlines) ha hstep
    refine ⟨fun x hx hx0 => ?_, fun heq => ?_⟩
    · by_cases hlt : x = lnr
      · subst hlt
        obtain ⟨m, hm⟩ := List.mem_iff_getElem?.mp hx
        rw [(classLines_here hlnr hline hm).2, Option.getD_some, if_neg (by decide)]
          at hbinLine hreqLine
        exact ⟨hbinLine.symm, hreqLine.symm⟩
      · rw [classLines_cons hline] at hx
        rcases List.mem_append.mp hx with hx | hx
        · exact ((mem_addedLine hx).2.elim hx0 hlt).elim
        · exact hcls x hx hx0
    · have := hne heq
      by_contra hlt
      have hl : sf.binpathLine = lnr := by omega
      rw [hl] at hbinLine
      rw [← heq, hl] at hreqLine
      split at hbinLine
      · rename_i htype
        rw [htype, if_neg (by decide)] at hreqLine
        exact hreqLine rfl
      · exact hbinLine rfl

end Lines

end ConfigState

/-! ## The config that is written -/

/-- What reading its line again changes in a class. -/
def DynMemEntry.reread (dm : DynMemEntry) : DynMemEntry :=
  { dm with
    codeOffs := dm.codeAddr
    lib := dm.lib.map fun lib => { lib with name := [] } }

/-- The adaption of the config `s`. -/
def Adaption.of (s : ConfigState) (refs : List Nat) (adp : Nat → U32 × Ptr) (path : Option Str) :
    Adaption where
  adp := adp
  refs := refs
  line := fun d => (s.opt.dynmems[d]?).elim [] fun dm => (dm.takeOver (adp d)).line
  adpReqLine := s.adpReqLine
  binpathLine := s.binpathLine
  path := path

namespace ConfigState

section Config

variable {fl : FloatLib} {s sf : ConfigState} {cfgPath procName text : Str} {n chunk : Nat}
  {lines lines' cfgLines : List Str} {refs : List Nat} {adp : Nat → U32 × Ptr} {path : Option Str}
  {preloadLib : Option Str} {a : AdaptState} {cfg : CfgMem}

theorem of_fits (hpath : ∀ p ∈ path, (∀ c ∈ p, isNameChar c = true) ∧ cppBasename p = s.procName) :
    (Adaption.of s refs adp path).Fits s := by
  refine ⟨fun d _ dm hdm => ?_, rfl, rfl, hpath⟩
  show (s.opt.dynmems[d]?).elim [] _ = _
  rw [hdm]
  rfl

/-- The path that the adaption has written into its line, if it has written one. -/
theorem rewrites_path {b : Nat} {a₀ : AdaptState} (h : a₀.Rewrites b a) :
    ∃ path : Option Str, path.getD a₀.gameBinpath = a.gameBinpath ∧ (b = 0 → path = none) ∧
      (∀ p ∈ path, p = a.gameBinpath ∧ a.cfgLines[b]? = some ("game_binpath ".toList ++ p)) ∧
      (b ≠ 0 → path = none → a.cfgLines[b]? = a₀.cfgLines[b]?) := by
  rcases h.binpath with ⟨hpath, hline⟩ | ⟨hb, hline⟩
  · exact ⟨none, hpath.symm, fun _ => rfl, fun p hp => absurd hp (Option.not_mem_none p),
      fun hb _ => hline hb⟩
  · refine ⟨some a.gameBinpath, rfl, fun h0 => absurd h0 hb, fun p hp => ?_, fun _ h => by cases h⟩
    obtain rfl := Option.mem_some_iff.mp hp
    exact ⟨rfl, hline⟩

theorem cfgLine_eq {d x : Nat} (hx : x ≠ 0) :
    cfgLine fl n cfgPath preloadLib (procName :: lines) d = x ↔
      ((init preloadLib procName).classLines fl n cfgPath 1 lines)[d]? = some x := by
  unfold cfgLine
  rw [List.headD_cons, List.tail_cons]
  cases ((init preloadLib procName).classLines fl n cfgPath 1 lines)[d]? with
  | none => simp [hx.symm]
  | some y => simp

/-- **What is written** are the lines of the adapted config. -/
theorem takeOver_written {a₀ : AdaptState}
    (hlines : readLines fl n cfgPath 1 (init preloadLib procName) lines = some (.ok s))
    (h₀ : a₀.cfgLines = procName :: lines) (hproc : a₀.procName = procName)
    (hrew : a₀.Rewrites s.binpathLine a)
    (htake : TakenOver adp (cfgLine fl n cfgPath preloadLib (procName :: lines)) s.opt.dynmems
      a.cfgLines refs (cfg.dynmems, cfgLines))
    (hlen : lines'.length = a.cfgLines.length)
    (hreq : s.adpReqLine ≠ 0 → lines'[s.adpReqLine]? = some "adapt_required 0".toList)
    (hother : ∀ j, (s.adpReqLine ≠ 0 → j ≠ s.adpReqLine) → lines'[j]? = cfgLines[j]?)
    (hstart : ∀ d ∈ refs, cfgLine fl n cfgPath preloadLib (procName :: lines) d ≠ 0)
    (hpath : ∀ p ∈ path, a.cfgLines[s.binpathLine]? = some ("game_binpath ".toList ++ p))
    (hkept : s.binpathLine ≠ 0 → path = none →
      a.cfgLines[s.binpathLine]? = a₀.cfgLines[s.binpathLine]?) :
    lines'[0]? = some a.procName ∧ (Adaption.of s refs adp path).Written fl n cfgPath 1
      (init preloadLib procName) lines lines'.tail := by
  have hb : (init preloadLib procName).binpathLine < 1 := Nat.zero_lt_one
  have hr : (init preloadLib procName).adpReqLine < 1 := Nat.zero_lt_one
  obtain ⟨hapart, hne⟩ := lines_apart Nat.one_ne_zero hb hr hlines
  have hclass : ∀ d, cfgLine fl n cfgPath preloadLib (procName :: lines) d ≠ 0 →
      s.binpathLine ≠ cfgLine fl n cfgPath preloadLib (procName :: lines) d ∧
      s.adpReqLine ≠ cfgLine fl n cfgPath preloadLib (procName :: lines) d := fun d hd =>
    hapart _ (List.mem_of_getElem? ((cfgLine_eq hd).mp rfl)) hd
  have htail : ∀ k, lines'.tail[k]? = lines'[1 + k]? := fun k => by
    rw [List.getElem?_tail, Nat.add_comm]
  refine ⟨?_, ?_, fun m k hm href => ?_, fun k hk => ?_, fun k hk p hp => ?_,
    fun k hcls hk hbin => ?_⟩
  · rw [hother 0 fun h0 => h0.symm, htake.other 0 hstart]
    exact hrew.first (by rw [h₀, hproc]; rfl)
  · rw [List.length_tail, hlen, hrew.length, h₀]
    rfl
  · have hzero : (init preloadLib procName).opt.dynmems.length + m = m := Nat.zero_add m
    rw [hzero] at href ⊢
    have hline := (cfgLine_eq (by omega)).mpr hm
    have hlt : m < s.opt.dynmems.length := by
      rw [readLines_length hlines]
      exact lt_of_lt_of_le (List.getElem?_eq_some_iff.mp hm).1 (Nat.le_add_left _ _)
    have hdm := List.getElem?_eq_getElem hlt
    have hinj : ∀ d ∈ refs, cfgLine fl n cfgPath preloadLib (procName :: lines) d =
        cfgLine fl n cfgPath preloadLib (procName :: lines) m → d = m := fun d _ heq =>
      classLines_inj (by omega) hlines Nat.one_ne_zero
        ((cfgLine_eq (by omega)).mp (heq.trans hline)) hm
    have hnew : (Adaption.of s refs adp path).line m =
        ((s.opt.dynmems[m]).takeOver (adp m)).line := by
      show (s.opt.dynmems[m]?).elim [] _ = _
      rw [hdm]
      rfl
    rw [htail, ← hline, hother _ fun _ => (hclass m (by omega)).2.symm, hnew]
    exact htake.line m href _ hdm hinj
  · have hk' : 1 + k = s.adpReqLine := hk
    rw [htail, hk']
    exact hreq (by omega)
  · have hk' : 1 + k = s.binpathLine := hk
    have hne' : s.binpathLine ≠ s.adpReqLine := fun heq => by
      have := hne heq
      omega
    rw [htail, hk', hother _ fun _ => hne',
      htake.other _ fun d hd heq => (hclass d (hstart d hd)).1 heq.symm]
    exact hpath p hp
  · have hzero : ∀ m, (init preloadLib procName).opt.dynmems.length + m = m := Nat.zero_add
    have hline : a₀.cfgLines[1 + k]? = lines[k]? := by
      rw [h₀, Nat.add_comm]
      rfl
    rw [htail, hother _ fun _ => hk, htake.other _ fun d hd heq =>
      hcls d ((hzero d).symm ▸ hd) ((cfgLine_eq (by omega)).mp heq), ← hline]
    by_cases hb' : 1 + k = s.binpathLine
    · rw [hb']
      exact hkept (by omega) (hbin hb')
    · exact hrew.other _ (by omega) hb'

theorem parseProcName_eq {line : Str} (h : parseProcName line = .ok procName) : line = procName := by
  unfold parseProcName at h
  split at h
  · cases h
  · split at h
    · cases h
    · exact Except.ok.inj h

/-- **A config is accepted** by its first line, by the others and by its end. -/
theorem readConfig_eq_ok : readConfig fl chunk n cfgPath preloadLib cfgLines = some (.ok s) ↔
    ∃ procName lines sf, cfgLines = procName :: lines ∧ parseProcName procName = .ok procName ∧
      readLines fl n cfgPath 1 (init preloadLib procName) lines = some (.ok sf) ∧
      finish chunk sf = .ok s := by
  constructor
  · intro h
    unfold readConfig at h
    split at h
    · cases h
    · rename_i line lines
      split at h
      · cases h
      · rename_i procName hproc
        obtain rfl := parseProcName_eq hproc
        obtain ⟨r, hlines, h⟩ := Option.map_eq_some_iff.mp h
        obtain ⟨sf, rfl, hfinish⟩ := Run.bind_eq_ok.mp h
        exact ⟨line, lines, sf, rfl, hproc, hlines, hfinish⟩
  · rintro ⟨procName, lines, sf, rfl, hproc, hlines, hfinish⟩
    rw [readConfig, hproc]
    dsimp only
    rw [hlines]
    exact congrArg some hfinish

theorem finish_eq (h : finish chunk sf = .ok s) :
    s = { sf with macros := [], opt := buildCaches chunk sf.opt } := by
  unfold finish at h
  split at h
  · cases h
  · exact (Except.ok.inj h).symm

/-- The end of the config does not look at what an adaption changes. -/
theorem finish_adapt (A : Adaption) (p : Str) (b : Bool) (h : finish chunk sf = .ok s) :
    finish chunk (A.config p b sf) = .ok (A.config p b s) := by
  unfold finish at h ⊢
  split at h
  · cases h
  · rename_i hclosed
    cases h
    exact if_neg hclosed

/-- The classes of the adapted config are those in memory, read again. -/
theorem dynmems_reread {dynmems : List DynMemEntry} (path : Option Str) :
    dynmems.mapIdx (Adaption.of s refs adp path).dynmem =
      (dynmems.mapIdx fun d dm => if d ∈ refs then dm.takeOver (adp d) else dm).mapIdx
        fun d dm => if d ∈ refs then dm.reread else dm := by
  refine List.ext_getElem? fun d => ?_
  rw [List.getElem?_mapIdx, List.getElem?_mapIdx, List.getElem?_mapIdx]
  cases dynmems[d]? with
  | none => rfl
  | some dm =>
    by_cases href : d ∈ refs
    · have href' : d ∈ (Adaption.of s refs adp path).refs := href
      simp only [Option.map_some, if_pos href, Adaption.dynmem, if_pos href']
      rfl
    · have href' : d ∉ (Adaption.of s refs adp path).refs := href
      simp only [Option.map_some, if_neg href, Adaption.dynmem, if_neg href']

/-- **The lines that are taken over** give the config in memory, apart from what is said of it in
`readConfig_adapted`. They are still lines, and an empty one at the end stays. -/
theorem readConfig_takenOver (hread : readConfig fl chunk n cfgPath preloadLib cfgLines = some (.ok s))
    (hparse : AdaptState.parseAdaptResult s.opt.toCfgMem s.binpathLine (.ofConfig s cfgLines) text =
      .ok a)
    (htake : takeOverLines s.opt.toCfgMem a.adp (cfgLine fl n cfgPath preloadLib cfgLines)
      s.adpReqLine a.cfgLines = .ok (cfg, lines'))
    (hname : a.procName = s.procName)
    (hpath : s.binpathLine ≠ 0 →
      (∀ c ∈ a.gameBinpath, isNameChar c = true) ∧ cppBasename a.gameBinpath = s.procName)
    (hstart : ∀ d ∈ classRefs none s.opt.entries,
      cfgLine fl n cfgPath preloadLib cfgLines d ≠ 0) :
    cfg = { s.opt.toCfgMem with
      dynmems := s.opt.dynmems.mapIdx fun d dm =>
        if d ∈ classRefs none s.opt.entries then dm.takeOver (a.adp d) else dm } ∧
    (∃ s₁, readLines fl n cfgPath 1 (init preloadLib s.procName)
        (cfgLines.tail.take (s.adpReqLine - 1)) = some (.ok s₁) ∧
      readConfig fl chunk n cfgPath preloadLib lines' = some (.ok { s with
        opt := { s.opt with
          dynmems := cfg.dynmems.mapIdx fun d dm =>
            if d ∈ classRefs none s.opt.entries then dm.reread else dm }
        gameBinpath := a.gameBinpath
        adpRequired := s₁.adpRequired })) ∧
    ((∀ l ∈ cfgLines, '\n' ∉ l) → ∀ l ∈ lines', '\n' ∉ l) ∧
    (cfgLines.getLast? = some [] → lines'.getLast? = some []) := by
  obtain ⟨procName, lines, sf, rfl, hproc, hlines, hfin⟩ := readConfig_eq_ok.mp hread
  have hs := finish_eq hfin
  have hsproc : s.procName = procName := by
    rw [hs]
    exact (readLines_extends hlines).procName
  have hdynmems : s.opt.dynmems = sf.opt.dynmems := by rw [hs]; rfl
  have hbinLine : s.binpathLine = sf.binpathLine := by rw [hs]
  have hreqLine : s.adpReqLine = sf.adpReqLine := by rw [hs]
  have hbinpath : s.gameBinpath = sf.gameBinpath := by rw [hs]
  obtain ⟨written, htaken, hcfg, hlen, hreq, hother⟩ := takeOverLines_eq htake
  have hrew := AdaptState.parseAdaptResult_rewrites hparse
  obtain ⟨path, hget, hnone, hnew, hkept⟩ := rewrites_path hrew
  rw [hbinLine] at hrew hnone hnew hkept hpath
  rw [hreqLine] at hreq hother
  have hclasses : cfg.dynmems = _ := htaken.classes
  rw [hdynmems] at htaken
  obtain ⟨hfirst, hw⟩ := takeOver_written hlines rfl hsproc hrew htaken hlen hreq hother hstart
    (fun p hp => (hnew p hp).2) hkept
  have hsf : sf.procName = procName := (readLines_extends hlines).procName
  have hfits : (Adaption.of sf (classRefs none s.opt.entries) a.adp path).Fits sf := by
    refine of_fits fun p hp => ?_
    have hb : sf.binpathLine ≠ 0 := fun h0 => by
      rw [hnone h0] at hp
      cases hp
    obtain ⟨hchars, hbase⟩ := hpath hb
    rw [(hnew p hp).1, hsf, ← hsproc]
    exact ⟨hchars, hbase⟩
  have hbetween : (Adaption.of sf (classRefs none s.opt.entries) a.adp path).Between 1 [] false
      (init preloadLib procName) := by
    refine ⟨?_, fun _ => rfl, Nat.zero_lt_one, Nat.zero_lt_one⟩
    show ([] : Str) = if sf.binpathLine < 1 then path.getD [] else []
    split
    · rw [hnone (by omega)]
      rfl
    · rfl
  have hclass : ∀ k, ((init preloadLib procName).classLines fl n cfgPath 1 lines)[k]? = some 0 →
      (init preloadLib procName).opt.dynmems.length + k ∉ classRefs none s.opt.entries := by
    intro k hk href
    have hzero : (init preloadLib procName).opt.dynmems.length + k = k := Nat.zero_add k
    refine hstart k (hzero ▸ href) ?_
    rw [cfgLine, List.headD_cons, List.tail_cons, hk]
    rfl
  obtain ⟨b, hread', hb⟩ := readLines_adapt hfits hbetween hclass hlines
  have hinit : (Adaption.of sf (classRefs none s.opt.entries) a.adp path).config [] false
      (init preloadLib procName) = init preloadLib procName := rfl
  have hwritten := lines_eq hfits Nat.one_ne_zero Nat.zero_lt_one Nat.zero_lt_one hlines hw
  rw [hinit, hwritten] at hread'
  have hlines' : lines' = procName :: lines'.tail := by
    rw [hname, hsproc] at hfirst
    cases lines' with
    | nil => cases hfirst
    | cons line lines' => rw [Option.some.inj hfirst, List.tail_cons]
  obtain ⟨s₁, hs₁, hb₁⟩ : ∃ s₁, readLines fl n cfgPath 1 (init preloadLib procName)
      (lines.take (sf.adpReqLine - 1)) = some (.ok s₁) ∧ b = s₁.adpRequired := by
    split at hb
    · exact hb
    · rename_i hle
      have hle' : ¬ 1 ≤ sf.adpReqLine := hle
      have hzero : sf.adpReqLine - 1 = 0 := by omega
      exact ⟨init preloadLib procName, by rw [hzero]; rfl, hb⟩
  refine ⟨hcfg.trans (by rw [hclasses]), ⟨s₁, by rw [hsproc, hreqLine]; exact hs₁, ?_⟩, fun hno => ?_,
    fun hlast => ?_⟩
  rotate_left
  · obtain ⟨hno₀, hno⟩ := List.forall_mem_cons.mp hno
    rw [hlines', ← hwritten]
    exact List.forall_mem_cons.mpr ⟨hno₀, lines_noBreak hfits hlines hno⟩
  · have hne : procName ≠ [] := by
      rintro rfl
      cases hproc
    cases lines with
    | nil => exact absurd (Option.some.inj hlast) hne
    | cons line lines =>
      rw [List.getLast?_cons_cons] at hlast
      rw [hlines', ← hwritten, List.getLast?_cons, lines_getLast hlast, Option.getD_some]
  have hend := finish_adapt (Adaption.of sf (classRefs none s.opt.entries) a.adp path)
    (path.getD sf.gameBinpath) b hfin
  refine (readConfig_eq_ok.mpr ⟨procName, _, _, hlines', hproc, hread', hend⟩).trans ?_
  have hget' : path.getD sf.gameBinpath = a.gameBinpath := by
    rw [← hbinpath]
    exact hget
  rw [hget', hb₁, hclasses, ← dynmems_reread path]
  rfl

/-- **The adapted config.** If the config ends with a line break, the file that `process_adaptation`
writes is read again as the config in memory. Only the classes have lost their libraries, and their code
addresses are their code offsets. The config requires adaption again if a line before the last
`adapt_required` says so. -/
theorem readConfig_adapted {fs fs' : FileSys} {home cfgName : Str}
    (hfile : readConfigVect fs home cfgName = some (cfgPath, cfgLines))
    (hbreak : ∀ content ∈ fs.file cfgPath, content.getLast? = some '\n')
    (hread : readConfig fl chunk n cfgPath preloadLib cfgLines = some (.ok s))
    (hadapt : processAdaptation fl n fs cfgPath preloadLib s cfgLines text = .ok (a, cfg, fs', lines'))
    (hname : a.procName = s.procName)
    (hpath : s.binpathLine ≠ 0 →
      (∀ c ∈ a.gameBinpath, isNameChar c = true) ∧ cppBasename a.gameBinpath = s.procName)
    (hstart : ∀ d ∈ classRefs none s.opt.entries,
      cfgLine fl n cfgPath preloadLib cfgLines d ≠ 0) :
    cfg = { s.opt.toCfgMem with
      dynmems := s.opt.dynmems.mapIdx fun d dm =>
        if d ∈ classRefs none s.opt.entries then dm.takeOver (a.adp d) else dm } ∧
    ∃ s₁ cfgLines', readLines fl n cfgPath 1 (init preloadLib s.procName)
        (cfgLines.tail.take (s.adpReqLine - 1)) = some (.ok s₁) ∧
      readConfigVect fs' home cfgName = some (cfgPath, cfgLines') ∧
      readConfig fl chunk n cfgPath preloadLib cfgLines' = some (.ok { s with
        opt := { s.opt with
          dynmems := cfg.dynmems.mapIdx fun d dm =>
            if d ∈ classRefs none s.opt.entries then dm.reread else dm }
        gameBinpath := a.gameBinpath
        adpRequired := s₁.adpRequired }) := by
  obtain ⟨a₁, hparse, hadapt⟩ := Run.bind_eq_ok.mp hadapt
  obtain ⟨⟨cfg₁, fs₁, lines₁⟩, hover, hadapt⟩ := Run.bind_eq_ok.mp hadapt
  cases hadapt
  obtain ⟨⟨cfg₂, lines₂⟩, htake, hover⟩ := Run.bind_eq_ok.mp hover
  obtain ⟨hno, hlast⟩ := readConfigVect_lines hfile hbreak
  obtain ⟨rfl, hwrite⟩ : cfg₂ = cfg ∧ (writeConfigVect fs cfgPath lines₂).1 = some fs' := by
    dsimp only at hover
    split at hover
    · rename_i heq
      cases hover
      exact ⟨rfl, congrArg Prod.fst heq⟩
    · cases hover
  obtain ⟨hcfg, ⟨s₁, hs₁, hread'⟩, hno', hlast'⟩ :=
    readConfig_takenOver hread hparse htake hname hpath hstart
  exact ⟨hcfg, s₁, lines₂, hs₁,
    readConfigVect_written hfile hwrite (hno' hno) (hlast' hlast), hread'⟩

end Config

/-- A class whose code is in a library. -/
def objText : Str := ("game\ngame_binpath /usr/games/game\nadapt_required 1\n" ++
  "dynmemstart Obj 28 0x4006a0 0x8 liba.so\nHP 0x4 i32 5 a a\ndynmemend\n").toList

def objAdapted : Str := ("game\ngame_binpath /opt/game\nadapt_required 0\n" ++
  "dynmemstart Obj 32 0x4007b0 0x8\nHP 0x4 i32 5 a a\ndynmemend\n").toList

/-- The script has found the class and another path. -/
theorem readConfig_adapted_example : ∃ s a cfg fs' lines',
    readConfig CfgReader.noFloats 8 0 "game.conf".toList none (getlines objText) = some (.ok s) ∧
    processAdaptation CfgReader.noFloats 0 (.single "game.conf".toList objText) "game.conf".toList none
      s (getlines objText) "1;game_binpath;/opt/game;Obj;0x20;0x4007b0\n".toList =
        .ok (a, cfg, fs', lines') ∧
    fs'.file "game.conf".toList = some objAdapted ∧
    ∃ s', readConfig CfgReader.noFloats 8 0 "game.conf".toList none (getlines objAdapted) =
        some (.ok s') ∧
      s'.opt.dynmems = cfg.dynmems.mapIdx (fun d dm =>
        if d ∈ classRefs none s.opt.entries then dm.reread else dm) := by
  have h : (readConfig CfgReader.noFloats 8 0 "game.conf".toList none (getlines objText)).map
      (·.map fun s => (processAdaptation CfgReader.noFloats 0 (.single "game.conf".toList objText)
        "game.conf".toList none s (getlines objText)
        "1;game_binpath;/opt/game;Obj;0x20;0x4007b0\n".toList).map fun x =>
          (x.2.2.1.file "game.conf".toList, decide (x.1.procName = s.procName ∧
            x.1.gameBinpath = "/opt/game".toList ∧ s.procName = "game".toList),
            (classRefs none s.opt.entries).all fun d =>
              cfgLine CfgReader.noFloats 0 "game.conf".toList none (getlines objText) d != 0)) =
      some (.ok (.ok (some objAdapted, true, true))) := by
    decide +kernel
  obtain ⟨r, hread, hr⟩ := Option.map_eq_some_iff.mp h
  obtain ⟨s, rfl, hview⟩ := Run.exists_ok_of_map hr
  obtain ⟨⟨a, cfg, fs', lines'⟩, hadapt, hview⟩ := Run.exists_ok_of_map hview
  simp only [Prod.mk.injEq] at hview
  obtain ⟨hwritten, hgame, hstart⟩ := hview
  obtain ⟨hname, hpath, hproc⟩ := of_decide_eq_true hgame
  have hchars : ("/opt/game".toList.all isNameChar) = true := by decide +kernel
  have hbreak : ∀ content ∈ (FileSys.single "game.conf".toList objText).file "game.conf".toList,
      content.getLast? = some '\n' := by decide +kernel
  obtain ⟨-, s₁, cfgLines', -, hfile, hread'⟩ := readConfig_adapted (readConfigVect_single objText)
    hbreak hread hadapt hname
    (fun _ => by
      rw [hpath, hproc]
      exact ⟨fun c hc => List.all_eq_true.mp hchars c hc, by decide +kernel⟩)
    (fun d hd => bne_iff_ne.mp (List.all_eq_true.mp hstart d hd))
  obtain ⟨content, hcontent, rfl⟩ := readConfigVect_eq hfile
  obtain rfl : objAdapted = content := Option.some.inj (hwritten.symm.trans hcontent)
  exact ⟨s, a, cfg, fs', lines', hread, hadapt, hwritten, _, hread', rfl⟩

end ConfigState

end UgTrain
