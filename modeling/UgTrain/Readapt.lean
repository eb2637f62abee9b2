import UgTrain.Adapt
import UgTrain.ActLists

/-!
# Reading the lines of an adapted config

What a line does to an adapted config is what it does to the config that was read before
(`readNamed_adapt`).

* `Adaption.config` is the adapted config: its classes have other sizes and code addresses, and no
  libraries, and the path of the game and `adapt_required` may differ.
* `GameStep` is what a line does to the data of the game, `readNamed_idents` what it does to the names
  of the classes; `Extends` is both, over many lines.
-/

namespace UgTrain

open CLib

/-- Which classes and lines are written anew. -/
structure Adaption where
  adp : Nat → U32 × Ptr
  refs : List Nat
  /-- The line of each class. -/
  line : Nat → Str
  adpReqLine : Nat
  binpathLine : Nat
  /-- The path that the output reports. -/
  path : Option Str

namespace Adaption

/-- The class `d` as its new line gives it. -/
def dynmem (A : Adaption) (d : Nat) (dm : DynMemEntry) : DynMemEntry :=
  if d ∈ A.refs then
    { dm with
      memSize := (A.adp d).1.setWidth 64
      codeAddr := (A.adp d).2
      codeOffs := (A.adp d).2
      lib := dm.lib.map fun lib => { lib with name := [] } }
  else dm

def reader (A : Adaption) (s : CfgReader) : CfgReader :=
  { s with opt := { s.opt with dynmems := s.opt.dynmems.mapIdx A.dynmem } }

/-- The adapted config, with the path of the game and `adapt_required`. -/
def config (A : Adaption) (path : Str) (adpRequired : Bool) (s : ConfigState) : ConfigState :=
  { s with toCfgReader := A.reader s.toCfgReader, gameBinpath := path, adpRequired := adpRequired }

end Adaption

section Reader

variable {A : Adaption} {fl : FloatLib} {s s' : CfgReader} {e start behind : Nat} {en : CfgEntry}
  {line name : Str} {α : Type}

theorem mapIdx_modify {f : Nat → α → α} {g : α → α} {d : Nat} (l : List α)
    (h : ∀ x, f d (g x) = g (f d x)) : (l.modify d g).mapIdx f = (l.mapIdx f).modify d g := by
  refine List.ext_getElem? fun k => ?_
  rw [List.getElem?_mapIdx, List.getElem?_modify, List.getElem?_modify, List.getElem?_mapIdx]
  by_cases hk : d = k
  · subst hk
    cases l[d]? with
    | none => rfl
    | some x => simp [h]
  · simp [hk]

theorem dynmem_cfgAct (d : Nat) (dm : DynMemEntry) (l : List Nat) :
    A.dynmem d { dm with cfgAct := dm.cfgAct ++ l } =
      { A.dynmem d dm with cfgAct := (A.dynmem d dm).cfgAct ++ l } := by
  unfold Adaption.dynmem
  split <;> rfl

/-! ### Values -/

theorem setRegion_adapt {a : LineAddr} {type : VType} (h : s.setRegion a = .ok (s', type)) :
    (A.reader s).setRegion a = .ok (A.reader s', type) := by
  unfold CfgReader.setRegion at h ⊢
  split at h
  · rename_i hon
    rw [if_pos hon]
    split at h
    · cases h
    · rename_i hout
      cases h
      exact if_neg hout
  · rename_i hon
    rw [if_neg hon]
    cases hlib : a.libName.filter (· ≠ []) with
    | none =>
      rw [hlib] at h
      cases h
      rfl
    | some name =>
      rw [hlib] at h
      dsimp only at h ⊢
      split at h
      · cases h
      · rename_i hout
        cases h
        exact if_neg hout

theorem setTarget_adapt {type type' : VType} {ptrtgt : Option Nat}
    (h : s.setTarget type line start = .ok (s', type', ptrtgt, behind)) :
    (A.reader s).setTarget type line start = .ok (A.reader s', type', ptrtgt, behind) := by
  unfold CfgReader.setTarget at h ⊢
  split at h
  · rename_i htext
    cases h
    exact if_pos htext
  · rename_i htext
    rw [if_neg htext]
    split at h
    · rename_i hsize
      cases h
      exact if_pos hsize
    · rename_i hsize
      rw [if_neg hsize]
      obtain ⟨⟨name, behind'⟩, hname, h⟩ := Run.bind_eq_ok.mp h
      rw [hname, Run.ok_bind]
      have hfind : findPtrMem (A.reader s).opt.toCfgMem name = findPtrMem s.opt.toCfgMem name := rfl
      dsimp only at h ⊢
      rw [hfind]
      cases hp : findPtrMem s.opt.toCfgMem name with
      | none =>
        rw [hp] at h
        cases h
      | some p =>
        rw [hp] at h
        cases h
        rfl

/-- The beginning of a value line. -/
theorem parseEntry_adapt (h : CfgReader.parseEntry fl s name line start = .ok (s', en, behind)) :
    CfgReader.parseEntry fl (A.reader s) name line start = .ok (A.reader s', en, behind) := by
  unfold CfgReader.parseEntry at h ⊢
  obtain ⟨a, haddr, h⟩ := Run.bind_eq_ok.mp h
  obtain ⟨⟨s₁, type⟩, hregion, h⟩ := Run.bind_eq_ok.mp h
  obtain ⟨⟨type₂, start₂⟩, htype, h⟩ := Run.bind_eq_ok.mp h
  obtain ⟨⟨s₂, type₃, ptrtgt, start₃⟩, htarget, h⟩ := Run.bind_eq_ok.mp h
  obtain ⟨v, hv, h⟩ := Run.bind_eq_ok.mp h
  have haddr' : parseAddress (A.reader s).opt .value line start = .ok a := haddr
  have hv' : parseValue fl (A.reader s₂).opt.entries (.wish type₃) line start₃ = .ok v := hv
  rw [haddr']
  simp only [Run.ok_bind]
  rw [setRegion_adapt hregion]
  simp only [Run.ok_bind, htype]
  rw [setTarget_adapt htarget]
  simp only [Run.ok_bind, hv']
  dsimp only at h
  split at h
  · cases h
  · rename_i htext
    rw [if_neg htext]
    cases h
    rfl

theorem activate_adapt : (A.reader s).activate e = A.reader (s.activate e) := by
  unfold CfgReader.activate
  cases hp : s.inPtrmem with
  | some p =>
    have hp' : (A.reader s).inPtrmem = some p := hp
    rw [hp']
    rfl
  | none =>
    have hp' : (A.reader s).inPtrmem = none := hp
    rw [hp']
    dsimp only
    cases hd : s.inDynmem with
    | none =>
      have hd' : (A.reader s).inDynmem = none := hd
      rw [hd']
      simp only [Adaption.reader, hd]
      rfl
    | some d =>
      have hd' : (A.reader s).inDynmem = some d := hd
      rw [hd']
      have hmod := mapIdx_modify (f := A.dynmem) (g := fun dm => { dm with cfgAct := dm.cfgAct ++ [e] })
        (d := d) s.opt.dynmems fun dm => dynmem_cfgAct d dm [e]
      simp only [Adaption.reader, hd, Option.elim_some, hmod]

theorem setState_adapt {st : Option Char} (h : s.setState e st = .ok s') :
    (A.reader s).setState e st = .ok (A.reader s') := by
  unfold CfgReader.setState at h ⊢
  split at h
  · cases h
  · cases h
    exact congrArg Except.ok activate_adapt
  · cases h
    exact congrArg Except.ok (activate_adapt (s := s.setWatch e))
  · cases h
    rfl

theorem bindKeys_adapt (keys : List Char) : keys.foldl (CfgReader.bindKey e) (A.reader s) =
    A.reader (keys.foldl (CfgReader.bindKey e) s) := by
  induction keys generalizing s with
  | nil => rfl
  | cons ch keys ih => exact ih (s := s.bindKey e ch)

theorem readValue_adapt (h : CfgReader.readValue fl s name line start = .ok s') :
    CfgReader.readValue fl (A.reader s) name line start = .ok (A.reader s') := by
  unfold CfgReader.readValue at h ⊢
  obtain ⟨⟨s₁, en, behind⟩, hentry, h⟩ := Run.bind_eq_ok.mp h
  rw [parseEntry_adapt hentry]
  simp only [Run.ok_bind]
  dsimp only at h
  split at h
  · rename_i hact
    cases h
    rw [if_pos hact]
    exact congrArg Except.ok (activate_adapt (s := s₁.pushEntry en))
  · rename_i hact
    rw [if_neg hact]
    unfold CfgReader.readKeys at h ⊢
    obtain ⟨⟨keys, start'⟩, hkeys, h⟩ := Run.bind_eq_ok.mp h
    rw [hkeys]
    simp only [Run.ok_bind]
    dsimp only at h
    split at h
    · cases h
    · rename_i hlen
      rw [if_neg hlen]
      have hbind := bindKeys_adapt (A := A) (e := s₁.opt.entries.length) (s := s₁.pushEntry en) keys
      have hstate := setState_adapt (A := A) h
      rw [← hbind] at hstate
      exact hstate

/-! ### Checks -/

theorem readCheck_adapt {objcheck : Bool} (h : s.readCheck fl objcheck line start = .ok s') :
    (A.reader s).readCheck fl objcheck line start = .ok (A.reader s') := by
  unfold CfgReader.readCheck at h ⊢
  split at h
  · cases h
  rename_i hobj
  have hobj' : ¬ (objcheck = true ∧ (A.reader s).inDynmem = none) := hobj
  rw [if_neg hobj']
  have hlast : (A.reader s).opt.entries.getLast? = s.opt.entries.getLast? := rfl
  rw [hlast]
  cases hen : s.opt.entries.getLast? with
  | none =>
    rw [hen] at h
    cases h
  | some en =>
    rw [hen] at h
    obtain ⟨⟨objNum, a⟩, haddr, h⟩ := Run.bind_eq_ok.mp h
    obtain ⟨⟨s₁, type⟩, hregion, h⟩ := Run.bind_eq_ok.mp h
    obtain ⟨⟨type₂, start₂⟩, htype, h⟩ := Run.bind_eq_ok.mp h
    obtain ⟨vals, hvals, h⟩ := Run.bind_eq_ok.mp h
    have haddr' : (A.reader s).parseCheckAddr line start = .ok (objNum, a) := haddr
    have hentries : (A.reader s₁).opt.entries = s₁.opt.entries := rfl
    dsimp only
    rw [haddr']
    simp only [Run.ok_bind]
    rw [setRegion_adapt hregion]
    simp only [Run.ok_bind, htype, hentries, hvals]
    dsimp only at h
    split at h
    · cases h
    · rename_i hplace
      cases h
      exact if_neg hplace

end Reader

/-! ### Lines -/

/-- What an accepted line does to an adapted config: the same, apart from the path and `adapt_required`
where the line is not about these. -/
structure Adaption.Follows (A : Adaption) (type : NameType) (path : Str) (adpRequired : Bool)
    (s s' t' : ConfigState) : Prop where
  config : t' = A.config t'.gameBinpath t'.adpRequired s'
  path_eq : type ≠ .gameBinpath → t'.gameBinpath = path
  path_read : path = s.gameBinpath → t'.gameBinpath = s'.gameBinpath
  adp_eq : type ≠ .adpReq → t'.adpRequired = adpRequired
  adp_read : adpRequired = s.adpRequired → t'.adpRequired = s'.adpRequired

namespace ConfigState

section Lines

variable {A : Adaption} {fl : FloatLib} {s s' : ConfigState} {cfgPath line name path : Str}
  {start lnr n chunk : Nat} {type : NameType} {lines : List Str} {adpRequired : Bool}

theorem outside_adapt {r : Except ReadError ConfigState} {t : ConfigState} (hd : s.inDynmem = none)
    (hp : s.inPtrmem = none) (hr : r = .ok t) :
    (A.config path adpRequired s).outside start r = .ok t := by
  have hout : ¬ ((A.config path adpRequired s).inDynmem.isSome ∨
      (A.config path adpRequired s).inPtrmem.isSome) := by
    have hd' : (A.config path adpRequired s).inDynmem = none := hd
    have hp' : (A.config path adpRequired s).inPtrmem = none := hp
    simp [hd', hp']
  unfold outside
  rw [if_neg hout, hr]

/-- A new class that is not written anew. -/
theorem pushClass_adapt {dm : DynMemEntry} (hnew : s.opt.dynmems.length ∉ A.refs) :
    (A.config path adpRequired s).pushClass dm = A.config path adpRequired (s.pushClass dm) := by
  have hmap : (s.opt.dynmems ++ [dm]).mapIdx A.dynmem = s.opt.dynmems.mapIdx A.dynmem ++ [dm] := by
    rw [List.mapIdx_append]
    simp [Adaption.dynmem, hnew]
  have hlen : (s.opt.dynmems.mapIdx A.dynmem).length = s.opt.dynmems.length := List.length_mapIdx
  unfold pushClass Adaption.config Adaption.reader
  simp only [hmap, hlen]

theorem modifyClass_adapt {d : Nat} {f : DynMemEntry → DynMemEntry}
    (hf : ∀ dm, A.dynmem d (f dm) = f (A.dynmem d dm)) :
    (A.config path adpRequired s).modifyClass d f = A.config path adpRequired (s.modifyClass d f) := by
  have hmap := mapIdx_modify (f := A.dynmem) (g := f) (d := d) s.opt.dynmems hf
  unfold modifyClass Adaption.config Adaption.reader
  simp only [hmap]

theorem follows_config {t' : ConfigState} (h : t' = A.config path adpRequired s')
    (hpath : s'.gameBinpath = s.gameBinpath) (hadp : s'.adpRequired = s.adpRequired) :
    A.Follows type path adpRequired s s' t' := by
  subst h
  exact ⟨rfl, fun _ => rfl, fun h => h.trans hpath.symm, fun _ => rfl, fun h => h.trans hadp.symm⟩

theorem readDynmemStart_adapt (hnew : s.opt.dynmems.length ∉ A.refs)
    (h : s.readDynmemStart fl line start = .ok s') : ∃ t', (A.config path adpRequired s).readDynmemStart
      fl line start = .ok t' ∧ A.Follows .dynmemStart path adpRequired s s' t' := by
  obtain ⟨h, hd, hp⟩ := outside_eq h
  obtain ⟨⟨name, behind⟩, hname, h⟩ := Run.bind_eq_ok.mp h
  obtain ⟨es, hes, h⟩ := Run.bind_eq_ok.mp h
  cases h
  refine ⟨_, outside_adapt hd hp ?_, follows_config rfl rfl rfl⟩
  have hes' : parseEssentials fl (A.config path adpRequired s).numLibs line behind = .ok es := hes
  rw [hname]
  simp only [Run.ok_bind, hes', pushClass_adapt hnew]
  rfl

theorem readDynmemConst_adapt (h : s.readDynmemConst fl line start = .ok s') :
    ∃ t', (A.config path adpRequired s).readDynmemConst fl line start = .ok t' ∧
      A.Follows .dynmemConst path adpRequired s s' t' := by
  unfold readDynmemConst at h ⊢
  have hin : (A.config path adpRequired s).inDynmem = s.inDynmem := rfl
  rw [hin]
  cases hd : s.inDynmem with
  | none =>
    rw [hd] at h
    cases h
  | some d =>
    rw [hd] at h
    obtain ⟨es, hes, h⟩ := Run.bind_eq_ok.mp h
    cases h
    have hes' : parseEssentials fl (A.config path adpRequired s).numLibs line start = .ok es := hes
    refine ⟨_, ?_, follows_config rfl rfl rfl⟩
    dsimp only
    rw [hes']
    refine congrArg Except.ok (modifyClass_adapt fun dm => ?_)
    unfold Adaption.dynmem
    split <;> rfl

theorem growClass_adapt {s₁ : ConfigState} {behind : Nat} (path : Str) (adpRequired : Bool)
    (hnew : s.inDynmem = none → s.opt.dynmems.length ∉ A.refs)
    (h : s.growClass line start = .ok (s₁, behind)) :
    (A.config path adpRequired s).growClass line start =
      .ok (A.config path adpRequired s₁, behind) ∧ s₁.gameBinpath = s.gameBinpath ∧
        s₁.adpRequired = s.adpRequired := by
  unfold growClass at h ⊢
  have hin : (A.config path adpRequired s).inDynmem = s.inDynmem := rfl
  rw [hin]
  cases hd : s.inDynmem with
  | some d =>
    rw [hd] at h
    cases h
    exact ⟨rfl, rfl, rfl⟩
  | none =>
    rw [hd] at h
    obtain ⟨⟨name, behind'⟩, hname, h⟩ := Run.bind_eq_ok.mp h
    cases h
    refine ⟨?_, rfl, rfl⟩
    dsimp only
    rw [hname]
    simp only [Run.ok_bind, pushClass_adapt (hnew hd)]
    rfl

theorem readDynmemGrow_adapt (hnew : s.inDynmem = none → s.opt.dynmems.length ∉ A.refs)
    (h : s.readDynmemGrow fl line start = .ok s') :
    ∃ t', (A.config path adpRequired s).readDynmemGrow fl line start = .ok t' ∧
      A.Follows .dynmemGrow path adpRequired s s' t' := by
  unfold readDynmemGrow at h ⊢
  split at h
  · cases h
  rename_i hp
  have hp' : ¬ (A.config path adpRequired s).inPtrmem.isSome := hp
  rw [if_neg hp']
  obtain ⟨⟨s₁, behind⟩, hclass, h⟩ := Run.bind_eq_ok.mp h
  obtain ⟨hclass', hpath, hadp⟩ :=
    growClass_adapt path adpRequired hnew hclass
  rw [hclass']
  simp only [Run.ok_bind]
  dsimp only at h
  have hin : (A.config path adpRequired s₁).inDynmem = s₁.inDynmem := rfl
  rw [hin]
  cases hd : s₁.inDynmem with
  | none =>
    rw [hd] at h
    cases h
  | some d =>
    rw [hd] at h
    dsimp only at h ⊢
    have hget : (A.config path adpRequired s₁).opt.dynmems[d]? =
        (s₁.opt.dynmems[d]?).map (A.dynmem d) := List.getElem?_mapIdx
    rw [hget]
    cases hdm : s₁.opt.dynmems[d]? with
    | none =>
      rw [hdm] at h
      cases h
    | some dm =>
      rw [hdm] at h
      dsimp only [Option.map_some] at h ⊢
      have hgrow : (A.dynmem d dm).grow = dm.grow := by
        unfold Adaption.dynmem
        split <;> rfl
      rw [hgrow]
      split at h
      · cases h
      · rename_i hnone
        obtain ⟨grow, hgrowing, h⟩ := Run.bind_eq_ok.mp h
        cases h
        have hgrowing' : parseGrowing fl (A.config path adpRequired s₁).numLibs line behind =
            .ok grow := hgrowing
        refine ⟨_, ?_, follows_config rfl hpath hadp⟩
        rw [if_neg hnone, hgrowing']
        refine congrArg Except.ok (modifyClass_adapt fun dm => ?_)
        unfold Adaption.dynmem
        split <;> rfl

theorem readPtrmemStart_adapt (h : s.readPtrmemStart fl line start = .ok s') :
    ∃ t', (A.config path adpRequired s).readPtrmemStart fl line start = .ok t' ∧
      A.Follows .ptrmemStart path adpRequired s s' t' := by
  unfold readPtrmemStart at h ⊢
  split at h
  · cases h
  rename_i hd
  obtain ⟨⟨name, behind⟩, hname, h⟩ := Run.bind_eq_ok.mp h
  obtain ⟨⟨memSize, behind'⟩, hsize, h⟩ := Run.bind_eq_ok.mp h
  cases h
  have hd' : ¬ (A.config path adpRequired s).inDynmem.isSome := hd
  refine ⟨_, ?_, follows_config rfl rfl rfl⟩
  rw [if_neg hd', hname]
  simp only [Run.ok_bind, hsize]
  rfl

theorem readDump_adapt (h : s.readDump fl line start = .ok s') :
    ∃ t', (A.config path adpRequired s).readDump fl line start = .ok t' ∧
      A.Follows .dump path adpRequired s s' t' := by
  unfold readDump at h ⊢
  obtain ⟨⟨addr, behind⟩, haddr, h⟩ := Run.bind_eq_ok.mp h
  obtain ⟨⟨memSize, behind'⟩, hsize, h⟩ := Run.bind_eq_ok.mp h
  rw [haddr]
  simp only [Run.ok_bind, hsize]
  dsimp only at h
  split at h
  · rename_i hname
    cases h
    exact ⟨_, if_pos hname, follows_config rfl rfl rfl⟩
  · rename_i hname
    cases h
    exact ⟨_, if_neg hname, follows_config rfl rfl rfl⟩

theorem readGame_adapt (h : readGame fl cfgPath lnr s type line start = .ok s') :
    ∃ t', readGame fl cfgPath lnr (A.config path adpRequired s) type line start = .ok t' ∧
      A.Follows type path adpRequired s s' t' := by
  unfold readGame at h ⊢
  cases type with
  | dynmemFile =>
    obtain ⟨⟨name, behind⟩, hname, h⟩ := Run.bind_eq_ok.mp h
    cases h
    refine ⟨_, ?_, follows_config rfl rfl rfl⟩
    dsimp only
    rw [hname]
    rfl
  | adpScript =>
    obtain ⟨⟨name, behind⟩, hname, h⟩ := Run.bind_eq_ok.mp h
    dsimp only at h
    split at h
    · cases h
    · rename_i hend
      cases h
      refine ⟨_, ?_, follows_config rfl rfl rfl⟩
      dsimp only
      rw [hname]
      exact if_neg hend
  | adpReq =>
    obtain ⟨⟨value, behind⟩, hvalue, h⟩ := Run.bind_eq_ok.mp h
    cases h
    refine ⟨A.config path (adpRequired || value != 0)
      { s with adpRequired := s.adpRequired || value != 0, adpReqLine := lnr }, ?_, rfl, fun _ => rfl,
      fun hpath => hpath, fun hne => absurd rfl hne, fun hadp => ?_⟩
    · dsimp only
      rw [hvalue]
      rfl
    · rw [hadp]
      rfl
  | gamePath =>
    obtain ⟨⟨name, behind⟩, hname, h⟩ := Run.bind_eq_ok.mp h
    dsimp only at h
    split at h
    · cases h
    · rename_i hbase
      cases h
      refine ⟨_, ?_, follows_config rfl rfl rfl⟩
      dsimp only
      rw [hname]
      exact if_neg hbase
  | gameCall =>
    obtain ⟨⟨name, behind⟩, hname, h⟩ := Run.bind_eq_ok.mp h
    cases h
    refine ⟨_, ?_, follows_config rfl rfl rfl⟩
    dsimp only
    rw [hname]
    rfl
  | gameBinpath =>
    obtain ⟨⟨name, behind⟩, hname, h⟩ := Run.bind_eq_ok.mp h
    dsimp only at h
    split at h
    · cases h
    · rename_i hbase
      cases h
      refine ⟨A.config name adpRequired { s with gameBinpath := name, binpathLine := lnr }, ?_, rfl,
        fun hne => absurd rfl hne, fun _ => rfl, fun _ => rfl, fun hadp => hadp⟩
      dsimp only
      rw [hname]
      exact if_neg hbase
  | gameParams =>
    dsimp only at h ⊢
    split at h
    · cases h
    · rename_i hlen
      cases h
      exact ⟨_, if_neg hlen, follows_config rfl rfl rfl⟩
  | regular | check | checkObj | define | useGbt | noPreload | dynmemStart | dynmemConst | dynmemGrow
  | dynmemEnd | ptrmemStart | ptrmemEnd | dump =>
    cases h
    exact ⟨_, rfl, follows_config rfl rfl rfl⟩

/-- **Each line** does the same to an adapted config, unless it adds a class that is written anew. -/
theorem readNamed_adapt (path : Str) (adpRequired : Bool)
    (hnew : type = .dynmemStart ∨ type = .dynmemGrow ∧ s.inDynmem = none →
      s.opt.dynmems.length ∉ A.refs)
    (h : readNamed fl cfgPath lnr s type name line start = .ok s') :
    ∃ t', readNamed fl cfgPath lnr (A.config path adpRequired s) type name line start = .ok t' ∧
      A.Follows type path adpRequired s s' t' := by
  have hgame : s.outside start (s.readGame fl cfgPath lnr type line start) = .ok s' →
      ∃ t', (A.config path adpRequired s).outside start
        (readGame fl cfgPath lnr (A.config path adpRequired s) type line start) = .ok t' ∧
        A.Follows type path adpRequired s s' t' := by
    intro h
    obtain ⟨h, hd, hp⟩ := outside_eq h
    obtain ⟨t', ht, hf⟩ := readGame_adapt h
    exact ⟨t', outside_adapt hd hp ht, hf⟩
  have hreader : ∀ {r r' : Except ReadError CfgReader}, (∀ c, r = .ok c → r' = .ok (A.reader c)) →
      s.withReader r = .ok s' → ∃ t', (A.config path adpRequired s).withReader r' = .ok t' ∧
        A.Follows type path adpRequired s s' t' := by
    intro r r' hr h
    unfold withReader at h ⊢
    cases r with
    | error e => cases h
    | ok c =>
      cases h
      rw [hr c rfl]
      exact ⟨_, rfl, follows_config rfl rfl rfl⟩
  unfold readNamed at h ⊢
  cases type with
  | checkObj => exact hreader (fun c hc => readCheck_adapt hc) h
  | check => exact hreader (fun c hc => readCheck_adapt hc) h
  | regular => exact hreader (fun c hc => readValue_adapt hc) h
  | dynmemStart => exact readDynmemStart_adapt (hnew (.inl rfl)) h
  | dynmemConst => exact readDynmemConst_adapt h
  | dynmemGrow => exact readDynmemGrow_adapt (fun hd => hnew (.inr ⟨rfl, hd⟩)) h
  | dynmemEnd =>
    dsimp only at h ⊢
    split at h
    · rename_i hd
      cases h
      exact ⟨_, if_pos hd, follows_config rfl rfl rfl⟩
    · cases h
  | ptrmemStart => exact readPtrmemStart_adapt h
  | ptrmemEnd =>
    dsimp only at h ⊢
    split at h
    · rename_i hp
      cases h
      exact ⟨_, if_pos hp, follows_config rfl rfl rfl⟩
    · cases h
  | define =>
    obtain ⟨h, hd, hp⟩ := outside_eq h
    obtain ⟨macros, hmacros, h⟩ := Run.bind_eq_ok.mp h
    cases h
    refine ⟨_, outside_adapt hd hp ?_, follows_config rfl rfl rfl⟩
    have hmacros' : (parseDefine (A.config path adpRequired s).macros line start).mapError
      NameError.read = .ok macros := hmacros
    rw [hmacros']
    rfl
  | dump =>
    obtain ⟨h, hd, hp⟩ := outside_eq h
    obtain ⟨t', ht, hf⟩ := readDump_adapt h
    exact ⟨t', outside_adapt hd hp ht, hf⟩
  | gameCall | gamePath | gameBinpath | gameParams | useGbt | noPreload | dynmemFile | adpScript
  | adpReq => exact hgame h

/-! ### What a line is about -/

/-- Whether a line adds a class. -/
def Adds (type : NameType) (s : ConfigState) : Prop :=
  type = .dynmemStart ∨ type = .dynmemGrow ∧ s.inDynmem = none

instance : Decidable (s.Adds type) := inferInstanceAs (Decidable (_ ∨ _))

/-- What identifies the classes. -/
def idents (s : CfgReader) : List (Str × Ptr) := s.opt.dynmems.map fun dm => (dm.name, dm.stackOffs)

/-- What a line does to the data of the game. -/
structure GameStep (lnr : Nat) (type : NameType) (s s' : ConfigState) : Prop where
  binpathLine : s'.binpathLine = if type = .gameBinpath then lnr else s.binpathLine
  gameBinpath : type ≠ .gameBinpath → s'.gameBinpath = s.gameBinpath
  adpReqLine : s'.adpReqLine = if type = .adpReq then lnr else s.adpReqLine
  adpRequired : type ≠ .adpReq → s'.adpRequired = s.adpRequired
  procName : s'.procName = s.procName

theorem gameStep_same (hb : type ≠ .gameBinpath) (ha : type ≠ .adpReq)
    (h : (s'.binpathLine, s'.gameBinpath, s'.adpReqLine, s'.adpRequired, s'.procName) =
      (s.binpathLine, s.gameBinpath, s.adpReqLine, s.adpRequired, s.procName)) :
    GameStep lnr type s s' := by
  simp only [Prod.mk.injEq] at h
  obtain ⟨h1, h2, h3, h4, h5⟩ := h
  exact ⟨by rw [if_neg hb, h1], fun _ => h2, by rw [if_neg ha, h3], fun _ => h4, h5⟩

theorem readGame_step (h : readGame fl cfgPath lnr s type line start = .ok s') :
    GameStep lnr type s s' := by
  unfold readGame at h
  cases type with
  | dynmemFile | gameCall =>
    obtain ⟨⟨name, behind⟩, -, h⟩ := Run.bind_eq_ok.mp h
    cases h
    exact gameStep_same (by decide) (by decide) rfl
  | adpScript | gamePath =>
    obtain ⟨⟨name, behind⟩, -, h⟩ := Run.bind_eq_ok.mp h
    dsimp only at h
    split at h
    · cases h
    · cases h
      exact gameStep_same (by decide) (by decide) rfl
  | adpReq =>
    obtain ⟨⟨value, behind⟩, -, h⟩ := Run.bind_eq_ok.mp h
    cases h
    exact ⟨rfl, fun _ => rfl, rfl, fun hne => absurd rfl hne, rfl⟩
  | gameBinpath =>
    obtain ⟨⟨name, behind⟩, -, h⟩ := Run.bind_eq_ok.mp h
    dsimp only at h
    split at h
    · cases h
    · cases h
      exact ⟨rfl, fun hne => absurd rfl hne, rfl, fun _ => rfl, rfl⟩
  | gameParams =>
    dsimp only at h
    split at h
    · cases h
    · cases h
      exact gameStep_same (by decide) (by decide) rfl
  | regular | check | checkObj | define | useGbt | noPreload | dynmemStart | dynmemConst | dynmemGrow
  | dynmemEnd | ptrmemStart | ptrmemEnd | dump =>
    cases h
    exact gameStep_same (by decide) (by decide) rfl

theorem readNamed_game (h : readNamed fl cfgPath lnr s type name line start = .ok s') :
    GameStep lnr type s s' := by
  have hgame : s.outside start (s.readGame fl cfgPath lnr type line start) = .ok s' →
      GameStep lnr type s s' := fun h => readGame_step (outside_eq h).1
  have hreader : ∀ {r : Except ReadError CfgReader}, type ≠ .gameBinpath → type ≠ .adpReq →
      s.withReader r = .ok s' → GameStep lnr type s s' := by
    intro r hb ha h
    unfold withReader at h
    cases r with
    | error e => cases h
    | ok c =>
      cases h
      exact gameStep_same hb ha rfl
  unfold readNamed at h
  cases type with
  | checkObj | check | regular => exact hreader (by decide) (by decide) h
  | dynmemStart =>
    obtain ⟨-, name, es, behind, -, rfl⟩ := readDynmemStart_eq h
    exact gameStep_same (by decide) (by decide) rfl
  | dynmemConst =>
    obtain ⟨d, es, -, rfl⟩ := readDynmemConst_eq h
    exact gameStep_same (by decide) (by decide) rfl
  | dynmemGrow =>
    rcases readDynmemGrow_eq h with ⟨-, behind, grow, -, ⟨d, -, rfl⟩ | ⟨-, name, rfl⟩⟩
    · exact gameStep_same (by decide) (by decide) rfl
    · exact gameStep_same (by decide) (by decide) rfl
  | dynmemEnd | ptrmemEnd =>
    dsimp only at h
    split at h
    · cases h
      exact gameStep_same (by decide) (by decide) rfl
    · cases h
  | ptrmemStart =>
    obtain ⟨-, name, memSize, rfl⟩ := readPtrmemStart_eq h
    exact gameStep_same (by decide) (by decide) rfl
  | define =>
    obtain ⟨h, -, -⟩ := outside_eq h
    obtain ⟨macros, -, h⟩ := Run.bind_eq_ok.mp h
    cases h
    exact gameStep_same (by decide) (by decide) rfl
  | dump =>
    obtain ⟨libs, dumps, -, rfl⟩ := readDump_eq (outside_eq h).1
    exact gameStep_same (by decide) (by decide) rfl
  | gameCall | gamePath | gameBinpath | gameParams | useGbt | noPreload | dynmemFile | adpScript
  | adpReq => exact hgame h

/-! ### Classes -/

theorem activate_idents {r : CfgReader} {e : Nat} : idents (r.activate e) = idents r := by
  unfold CfgReader.activate idents
  cases r.inPtrmem with
  | some p => rfl
  | none =>
    cases r.inDynmem with
    | none => rfl
    | some d =>
      refine Pointwise.map_modify_eq ?_ _ d
      exact fun _ => rfl

theorem readValue_idents {r r' : CfgReader} (h : CfgReader.readValue fl r name line start = .ok r') :
    idents r' = idents r := by
  obtain ⟨r₁, en, behind, dynval, g, hentry, -, hr'⟩ := CfgReader.readValue_cases h
  have hsame : idents (r₁.pushEntry { en with dynval := dynval }) = idents r := by
    obtain ⟨hlists, -⟩ := CfgReader.parseEntry_sameLists hentry
    show r₁.opt.dynmems.map _ = _
    rw [hlists.dynmems]
    rfl
  rcases hr' with rfl | rfl
  · exact hsame
  · exact activate_idents.trans hsame

theorem readCheck_idents {r r' : CfgReader} {objcheck : Bool}
    (h : r.readCheck fl objcheck line start = .ok r') : idents r' = idents r := by
  obtain ⟨r₁, en, a, type, chks, _, _, -, hregion, -, rfl⟩ := CfgReader.readCheck_cases h
  obtain ⟨hsame, -⟩ := CfgReader.setRegion_sameLists hregion
  show r₁.opt.dynmems.map _ = _
  rw [hsame.dynmems]
  rfl

theorem modifyClass_idents {d : Nat} {f : DynMemEntry → DynMemEntry}
    (hf : ∀ dm, ((f dm).name, (f dm).stackOffs) = (dm.name, dm.stackOffs)) :
    idents (s.modifyClass d f).toCfgReader = idents s.toCfgReader :=
  Pointwise.map_modify_eq hf _ d

theorem pushClass_idents (dm : DynMemEntry) : idents (s.pushClass dm).toCfgReader =
    idents s.toCfgReader ++ [(dm.name, dm.stackOffs)] := by
  unfold idents pushClass
  rw [List.map_append]
  rfl

/-- The classes that were there keep their names and stack offsets, and a line adds one at most. -/
theorem readNamed_idents (h : readNamed fl cfgPath lnr s type name line start = .ok s') :
    if s.Adds type then ∃ x, idents s'.toCfgReader = idents s.toCfgReader ++ [x]
    else idents s'.toCfgReader = idents s.toCfgReader := by
  have hreader : ∀ {r : Except ReadError CfgReader}, ¬ s.Adds type →
      (∀ c, r = .ok c → idents c = idents s.toCfgReader) → s.withReader r = .ok s' →
      if s.Adds type then ∃ x, idents s'.toCfgReader = idents s.toCfgReader ++ [x]
      else idents s'.toCfgReader = idents s.toCfgReader := by
    intro r hno hr h
    obtain ⟨c, hc, rfl⟩ := withReader_eq h
    rw [if_neg hno]
    exact hr _ hc
  unfold readNamed at h
  cases type with
  | checkObj | check =>
    exact hreader (by simp [Adds]) (fun c hc => readCheck_idents hc) h
  | regular => exact hreader (by simp [Adds]) (fun c hc => readValue_idents hc) h
  | dynmemStart =>
    obtain ⟨-, name, es, behind, -, rfl⟩ := readDynmemStart_eq h
    rw [if_pos (.inl rfl)]
    exact ⟨_, pushClass_idents _⟩
  | dynmemConst =>
    obtain ⟨d, es, -, rfl⟩ := readDynmemConst_eq h
    rw [if_neg (by simp [Adds])]
    exact modifyClass_idents fun _ => rfl
  | dynmemGrow =>
    obtain ⟨-, behind, grow, -, hclass⟩ := readDynmemGrow_eq h
    have hmod : ∀ (s : ConfigState) (d : Nat),
        idents (s.setGrow d grow).toCfgReader = idents s.toCfgReader :=
      fun s d => modifyClass_idents fun _ => rfl
    rcases hclass with ⟨d, hd, rfl⟩ | ⟨hd, name, rfl⟩
    · rw [hmod, if_neg (by simp [Adds, hd])]
    · rw [hmod, if_pos (.inr ⟨rfl, hd⟩)]
      exact ⟨_, pushClass_idents _⟩
  | dynmemEnd | ptrmemEnd =>
    dsimp only at h
    rw [if_neg (by simp [Adds])]
    split at h
    · cases h
      rfl
    · cases h
  | ptrmemStart =>
    obtain ⟨-, name, memSize, rfl⟩ := readPtrmemStart_eq h
    rw [if_neg (by simp [Adds])]
    rfl
  | define =>
    obtain ⟨h, -, -⟩ := outside_eq h
    obtain ⟨macros, -, h⟩ := Run.bind_eq_ok.mp h
    cases h
    rw [if_neg (by simp [Adds])]
  | dump =>
    obtain ⟨libs, dumps, -, rfl⟩ := readDump_eq (outside_eq h).1
    rw [if_neg (by simp [Adds])]
    rfl
  | gameCall | gamePath | gameBinpath | gameParams | useGbt | noPreload | dynmemFile | adpScript
  | adpReq =>
    rw [if_neg (by simp [Adds]), (readGame_reader (outside_eq h).1).1]

/-! ### A line, and all of them -/

/-- A line is a comment, or a named one behind its macros. -/
theorem readLine_cases (h : readLine fl n cfgPath lnr s line = some (.ok s')) :
    (s' = s ∧ s.lineType n line = none ∧ ∀ t, readLine fl n cfgPath lnr t line = some (.ok t)) ∨
    ∃ type ret line' start, s.lineType n line = some type ∧
      readNamed fl cfgPath lnr s type ret line' start = .ok s' ∧
      ∀ t, t.macros = s.macros → readLine fl n cfgPath lnr t line =
        some (readNamed fl cfgPath lnr t type ret line' start) := by
  unfold readLine at h
  split at h
  · rename_i hcomment
    cases h
    exact .inl ⟨rfl, if_pos hcomment, fun t => if_pos hcomment⟩
  · rename_i hcomment
    obtain ⟨r, hr, h⟩ := Option.map_eq_some_iff.mp h
    obtain ⟨v, hv, h⟩ := Run.bind_eq_ok.mp h
    cases r with
    | error e => cases hv
    | ok v' =>
      obtain rfl : v' = v := Except.ok.inj hv
      refine .inr ⟨v'.nameType.getD .regular, v'.ret, v'.line, v'.start, ?_, h, fun t ht => ?_⟩
      · unfold lineType
        rw [if_neg hcomment, hr]
      · unfold readLine
        rw [if_neg hcomment, ht, hr]
        rfl

theorem readLines_cons (h : readLines fl n cfgPath lnr s (line :: lines) = some (.ok s')) :
    ∃ s₁, readLine fl n cfgPath lnr s line = some (.ok s₁) ∧
      readLines fl n cfgPath (lnr + 1) s₁ lines = some (.ok s') := by
  rw [readLines] at h
  split at h
  · cases h
  · cases h
  · rename_i s₁ hline
    exact ⟨s₁, hline, h⟩

/-- What the lines leave of what was read before. -/
structure Extends (lnr : Nat) (s s' : ConfigState) : Prop where
  idents : idents s.toCfgReader <+: idents s'.toCfgReader
  binpathLine : s'.binpathLine = s.binpathLine ∨ lnr ≤ s'.binpathLine
  adpReqLine : s'.adpReqLine = s.adpReqLine ∨ lnr ≤ s'.adpReqLine
  procName : s'.procName = s.procName

theorem readLine_extends (h : readLine fl n cfgPath lnr s line = some (.ok s')) :
    s.Extends lnr s' := by
  rcases readLine_cases h with ⟨rfl, -⟩ | ⟨type, ret, line', start, -, h, -⟩
  · exact ⟨List.prefix_refl _, .inl rfl, .inl rfl, rfl⟩
  · have hstep := readNamed_game h
    have hids := readNamed_idents h
    refine ⟨?_, ?_, ?_, hstep.procName⟩
    · split at hids
      · obtain ⟨x, hx⟩ := hids
        exact ⟨[x], hx.symm⟩
      · exact hids ▸ List.prefix_refl _
    · rw [hstep.binpathLine]
      split
      · exact .inr (le_refl _)
      · exact .inl rfl
    · rw [hstep.adpReqLine]
      split
      · exact .inr (le_refl _)
      · exact .inl rfl

theorem readLines_extends (h : readLines fl n cfgPath lnr s lines = some (.ok s')) :
    s.Extends lnr s' := by
  induction lines generalizing lnr s with
  | nil =>
    cases h
    exact ⟨List.prefix_refl _, .inl rfl, .inl rfl, rfl⟩
  | cons line lines ih =>
    obtain ⟨s₁, hline, h⟩ := readLines_cons h
    have h₁ := readLine_extends hline
    have h₂ := ih h
    refine ⟨h₁.idents.trans h₂.idents, ?_, ?_, h₂.procName.trans h₁.procName⟩
    · have := h₁.binpathLine
      have := h₂.binpathLine
      omega
    · have := h₁.adpReqLine
      have := h₂.adpReqLine
      omega

end Lines

end ConfigState

end UgTrain
