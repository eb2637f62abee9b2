import UgTrain.LatePic

/-!
# Both sides agree after late PIC handling

A run of library loads from the state after the early PIC handling, where each request is answered
at once. `late_pic_iff`: ugtrain and libmemhack hold the same code addresses all along the run
exactly if they do so at its start, and each library that is found, and asked for, moves only items
that both sides move.

* libmemhack moves every item whose library name has the loaded one in it, a constructor as well.
* ugtrain moves a class or a growth rule whose library has the very name.
-/

namespace UgTrain

open CLib

/-! ## The items of both sides -/

/-- An item of ugtrain. -/
structure CodeItem where
  isConst : Bool
  lib : Option LibStr
  codeOffs : Ptr
  codeAddr : Ptr

/-- An item of libmemhack. -/
structure HackItem where
  lib : Option Str
  codeOffs : Ptr
  codeAddr : Ptr

def DynMemEntry.codeItems (dynmem : DynMemEntry) : List CodeItem :=
  ⟨false, dynmem.lib, dynmem.codeOffs, dynmem.codeAddr⟩ ::
    (dynmem.consts.map fun es => ⟨true, es.lib, es.codeOffs, es.codeAddr⟩) ++
    dynmem.grow.toList.map fun grow => ⟨false, grow.lib, grow.codeOffs, grow.codeAddr⟩

def CfgMem.codeItems (cfg : CfgMem) : List CodeItem := cfg.classes.flatMap (·.codeItems)

def HackCfg.lateItems (cfg : HackCfg) : List HackItem :=
  ⟨cfg.lib, cfg.codeOffs, cfg.codeAddr⟩ ::
    cfg.grow.toList.map fun grow => ⟨grow.lib, grow.codeOffs, grow.codeAddr⟩

/-- What the config parser gives for the code addresses. -/
structure CfgMem.CodeParsed (cfg : CfgMem) : Prop where
  codeOffs : ∀ u ∈ cfg.codeItems, u.codeOffs = u.codeAddr
  /-- The name `exe` stands for no library. -/
  lib : ∀ u ∈ cfg.codeItems, ∀ lib ∈ u.lib, lib.name ≠ exeLib

/-- **An accepted config** has these code addresses. -/
theorem readConfig_codeParsed {fl : FloatLib} {chunk n : Nat} {cfgPath : Str}
    {preloadLib : Option Str} {lines : List Str} {c : ConfigState}
    (h : ConfigState.readConfig fl chunk n cfgPath preloadLib lines = some (.ok c)) :
    c.opt.CodeParsed := by
  have hitem : ∀ u ∈ c.opt.codeItems, u.codeOffs = u.codeAddr ∧ ∀ lib ∈ u.lib, lib.name ≠ exeLib := by
    intro u hu
    obtain ⟨dm, hdm, hu⟩ := List.mem_flatMap.mp hu
    obtain ⟨d, -, hd⟩ := List.mem_filterMap.mp hdm
    have hp := ConfigState.readConfig_parsed h dm (List.mem_of_getElem? hd)
    rcases List.mem_append.mp hu with hu | hu
    · rcases List.mem_cons.mp hu with rfl | hu
      · exact ⟨(hp.essentials _ List.mem_cons_self).codeOffs,
          (hp.essentials _ List.mem_cons_self).lib⟩
      · obtain ⟨es, hes, rfl⟩ := List.mem_map.mp hu
        have := hp.essentials es (List.mem_cons_of_mem _ hes)
        exact ⟨this.codeOffs, this.lib⟩
    · obtain ⟨grow, hgrow, rfl⟩ := List.mem_map.mp hu
      have := hp.grow grow (Option.mem_toList.mp hgrow)
      exact ⟨this.codeOffs, this.lib⟩
  exact ⟨fun u hu => (hitem u hu).1, fun u hu => (hitem u hu).2⟩

/-! ## Library loads -/

structure LateState where
  cfg : CfgMem
  config : List HackCfg

/-- A library that is loaded, and the memory regions then. -/
structure LibLoad where
  libPath : Str
  rlist : List Region

/-- The request of libmemhack, answered at once. -/
def askLibLoad (rlist : List Region) (libName : Str) (cfg : CfgMem) : Option Ptr × CfgMem :=
  match getLibLoadAddr rlist libName cfg with
  | (cfg, none) => (none, cfg)
  | (cfg, some text) => ((scanLibBounds (readInput text)).map (·.1), cfg)

def LateState.step (s : LateState) (ev : LibLoad) : Except Fault LateState :=
  let (config, cfg) := postprocessDlopen (askLibLoad ev.rlist) ev.libPath s.config s.cfg
  .ok ⟨cfg, config⟩

/-- Both sides hold the same code address for each item, also for one without an address in the
config. -/
def LateState.Agree (s : LateState) : Prop :=
  List.Forall₂ (fun u h => h.codeAddr = u.codeAddr) s.cfg.codeItems
    (s.config.flatMap (·.lateItems))

instance (s : LateState) : Decidable s.Agree := inferInstanceAs (Decidable (List.Forall₂ _ _ _))

/-- The library is moved by ugtrain, too, or the item is there already. -/
def LateState.Keeps (s : LateState) (ev : LibLoad) : Prop :=
  let libName := basename ev.libPath
  let libStart := (findLibBounds ev.rlist libName).1
  libName ≠ [] → libStart ≠ 0 → ∀ u ∈ s.cfg.codeItems, inLib libName (hackLib u.lib) = true →
    (u.isConst = true ∨ ¬ u.lib.any (·.name = libName)) → u.codeAddr = u.codeOffs + libStart

/-! ## ugtrain -/

section Ugtrain

variable {libName : Str} {libStart : Ptr} {cfg : CfgMem}

def CodeItem.setLoad (libName : Str) (libStart : Ptr) (u : CodeItem) : CodeItem :=
  if u.isConst = false ∧ u.lib.any (·.name = libName) then
    { u with codeAddr := u.codeOffs + libStart }
  else u

theorem setLoad_codeItems (dynmem : DynMemEntry) : (dynmem.setLoad libName libStart).codeItems =
    dynmem.codeItems.map (CodeItem.setLoad libName libStart) := by
  have hconst : (dynmem.consts.map fun es => CodeItem.mk true es.lib es.codeOffs es.codeAddr) =
      (dynmem.consts.map fun es => CodeItem.mk true es.lib es.codeOffs es.codeAddr).map
        (CodeItem.setLoad libName libStart) := by
    simp [CodeItem.setLoad]
  unfold DynMemEntry.codeItems
  rw [List.map_append, List.map_cons, ← hconst]
  congr 1
  · congr 1
    simp only [DynMemEntry.setLoad, CodeItem.setLoad, true_and]
    split <;> rfl
  · cases hg : dynmem.grow with
    | none => simp [DynMemEntry.setLoad, hg]
    | some grow =>
      simp only [DynMemEntry.setLoad, hg, Option.map_some, Option.toList_some, List.map_cons,
        List.map_nil, GrowEntry.setLoad, CodeItem.setLoad, true_and]
      split <;> rfl

/-- **The loop of `get_lib_load_addr`** goes to every class once. -/
theorem load_fold (es : List CfgEntry) : ∀ st : LoadState, (classRefs st.oldDynmem es).Nodup →
    (∀ d, Refs es d → d < st.dynmems.length) →
      ∀ d : Nat, (es.foldl (LoadState.step libName libStart) st).dynmems[d]? =
        if d ∈ classRefs st.oldDynmem es then (st.dynmems[d]?).map (·.setLoad libName libStart)
        else st.dynmems[d]? := by
  induction es with
  | nil => intro st _ _ d; simp [classRefs]
  | cons en es ih =>
    intro st hnd hv d
    have hv' : ∀ d, Refs es d → d < st.dynmems.length :=
      fun d hd => hv d (List.mem_cons_of_mem _ hd)
    rw [List.foldl_cons, LoadState.step]
    cases hen : en.dynmem with
    | none =>
      simp only [classRefs, hen] at hnd
      simpa only [Option.bind_none, classRefs, hen] using ih st hnd hv' d
    | some d₀ =>
      have hlt : d₀ < st.dynmems.length := hv d₀ (by simp [Refs, hen])
      simp only [Option.bind_some, List.getElem?_eq_getElem hlt, Option.map_some, classRefs, hen]
      simp only [classRefs, hen] at hnd
      by_cases hold : some d₀ = st.oldDynmem
      · rw [if_pos hold] at hnd
        rw [if_pos hold, if_pos hold]
        exact ih st hnd hv' d
      · rw [if_neg hold] at hnd
        obtain ⟨hnot, hnd⟩ := List.nodup_cons.mp hnd
        rw [if_neg hold, if_neg hold, ih _ hnd (by simpa using hv') d, List.getElem?_set]
        by_cases hd : d₀ = d
        · subst hd
          simp [hnot, hlt]
        · have hmem : d ∈ d₀ :: classRefs (some d₀) es ↔ d ∈ classRefs (some d₀) es := by
            simp [Ne.symm hd]
          simp only [if_neg hd, hmem]

/-- The entries of the config let each class be found once. -/
def CfgMem.RefsOk (cfg : CfgMem) : Prop :=
  (classRefs none cfg.entries).Nodup ∧ ∀ d, Refs cfg.entries d → d < cfg.dynmems.length

theorem load_fold_length (es : List CfgEntry) : ∀ st : LoadState,
    (es.foldl (LoadState.step libName libStart) st).dynmems.length = st.dynmems.length := by
  induction es with
  | nil => intro st; rfl
  | cons en es ih =>
    intro st
    rw [List.foldl_cons, ih]
    unfold LoadState.step
    split
    · rfl
    · split
      · rfl
      · exact List.length_set

theorem length_printHex (a : Ptr) : (printHex a).length ≤ 18 := by
  have := Nat.toDigits_length 16 a.toNat 16 (by decide) (by omega)
  simp only [printHex, List.length_cons]
  omega

/-- The answer is read as it was written. -/
theorem scanLibBounds_sent (bounds : Ptr × Ptr) :
    scanLibBounds (readInput (sendLibBounds bounds)) = some bounds := by
  have hread : readInput (sendLibBounds bounds) = sendLibBounds bounds := by
    refine List.take_of_length_le ?_
    have h₁ := length_printHex bounds.1
    have h₂ := length_printHex bounds.2
    simp only [sendLibBounds, List.length_append, List.length_cons, List.length_nil, bufSize,
      pipeBuf]
    omega
  have hend : scanPtr (printHex bounds.2 ++ ['\n']) = some (bounds.2, ['\n']) :=
    scanPtr_printHex _ (noDigit_cons.mpr (by decide)) (by simp)
  rw [hread, scanLibBounds, sendLibBounds, List.append_assoc, List.cons_append, scanPtr_sep]
  simp only [bind, Option.bind, scanLit_sep, hend]
  rfl

/-- **`get_lib_load_addr`** moves the classes of the library, and its answer is read. -/
theorem askLibLoad_spec (h : cfg.RefsOk) (rlist : List Region) (libName : Str) :
    ((findLibBounds rlist libName).1 = 0 → askLibLoad rlist libName cfg = (none, cfg)) ∧
      ((findLibBounds rlist libName).1 ≠ 0 → ∃ cfg', askLibLoad rlist libName cfg =
          (some (findLibBounds rlist libName).1, cfg') ∧ cfg'.RefsOk ∧ cfg'.codeItems =
            cfg.codeItems.map (CodeItem.setLoad libName (findLibBounds rlist libName).1)) := by
  unfold askLibLoad getLibLoadAddr
  generalize findLibBounds rlist libName = bounds
  obtain ⟨libStart, libEnd⟩ := bounds
  refine ⟨fun h0 => by simp only [if_pos h0], fun hne => ?_⟩
  simp only [if_neg hne]
  set st := cfg.entries.foldl (LoadState.step libName libStart) ⟨cfg.dynmems, none⟩ with hst
  have hscan := scanLibBounds_sent (libStart, libEnd)
  refine ⟨{ cfg with dynmems := st.dynmems }, by rw [hscan]; rfl, ⟨h.1, ?_⟩, ?_⟩
  · rw [hst, load_fold_length]
    exact h.2
  · have hclasses : CfgMem.classes { cfg with dynmems := st.dynmems } =
        cfg.classes.map (·.setLoad libName libStart) := by
      rw [CfgMem.classes, CfgMem.classes, List.map_filterMap]
      refine List.filterMap_congr fun d hd => ?_
      rw [hst, load_fold cfg.entries ⟨cfg.dynmems, none⟩ h.1 h.2 d, if_pos hd]
    rw [CfgMem.codeItems, hclasses, CfgMem.codeItems, List.flatMap_map, List.map_flatMap]
    exact congrArg (cfg.classes.flatMap ·) (funext setLoad_codeItems)

end Ugtrain

/-! ## libmemhack -/

section Libmemhack

variable {libName : Str} {load : Ptr} {config : List HackCfg}

def HackItem.setLoad (libName : Str) (load : Ptr) (h : HackItem) : HackItem :=
  if inLib libName h.lib then { h with codeAddr := h.codeOffs + load } else h

theorem setLoad_lateItems (cfg : HackCfg) : (cfg.setLoad libName load).lateItems =
    cfg.lateItems.map (HackItem.setLoad libName load) := by
  unfold HackCfg.lateItems
  rw [List.map_cons]
  congr 1
  · simp only [HackCfg.setLoad, HackItem.setLoad]
    split <;> rfl
  · cases hg : cfg.grow with
    | none => simp [HackCfg.setLoad, hg]
    | some grow =>
      simp only [HackCfg.setLoad, hg, Option.map_some, Option.toList_some, List.map_cons,
        List.map_nil, HackGrow.setLoad, HackItem.setLoad]
      split <;> rfl

theorem asks_iff : config.any (·.asks libName) = true ↔
    ∃ h ∈ config.flatMap (·.lateItems), inLib libName h.lib = true := by
  simp only [List.any_eq_true, List.mem_flatMap]
  constructor
  · rintro ⟨cfg, hcfg, hasks⟩
    unfold HackCfg.asks at hasks
    rcases Bool.or_eq_true_iff.mp hasks with hin | hin
    · exact ⟨_, ⟨cfg, hcfg, List.mem_cons_self⟩, hin⟩
    · obtain ⟨grow, hgrow, hin⟩ := (Option.any_eq_true _ _).mp hin
      exact ⟨⟨grow.lib, grow.codeOffs, grow.codeAddr⟩, ⟨cfg, hcfg, by
        simp [HackCfg.lateItems, hgrow]⟩, hin⟩
  · rintro ⟨h, ⟨cfg, hcfg, hh⟩, hin⟩
    refine ⟨cfg, hcfg, ?_⟩
    unfold HackCfg.asks
    rcases List.mem_cons.mp hh with rfl | hh
    · rw [hin, Bool.true_or]
    · obtain ⟨grow, hgrow, rfl⟩ := List.mem_map.mp hh
      have hgrow : cfg.grow = some grow := by simpa using hgrow
      have hin : inLib libName grow.lib = true := hin
      simp [hgrow, hin]

end Libmemhack

/-! ## One load -/

section Step

variable {s : LateState} {ev : LibLoad}

/-- Both sides have the same items, apart from their code addresses. -/
def LateState.Same (s : LateState) : Prop :=
  List.Forall₂ (fun u h => h.lib = hackLib u.lib ∧ h.codeOffs = u.codeOffs ∧
    ∀ lib ∈ u.lib, lib.name ≠ exeLib) s.cfg.codeItems (s.config.flatMap (·.lateItems))

theorem forall₂_iff_forall {α β : Type} {P Q : α → β → Prop} {C : α → Prop} {l : List α}
    {l' : List β} (h : List.Forall₂ P l l') (hiff : ∀ a b, P a b → (Q a b ↔ C a)) :
    List.Forall₂ Q l l' ↔ ∀ a ∈ l, C a := by
  induction h with
  | nil => simp
  | cons hab _ ih => rw [List.forall₂_cons, ih, hiff _ _ hab, List.forall_mem_cons]

theorem LateState.Same.libs (h : s.Same) : s.cfg.codeItems.map (fun u => hackLib u.lib) =
    (s.config.flatMap (·.lateItems)).map (·.lib) := by
  have heq : List.Forall₂ (· = ·) (s.cfg.codeItems.map fun u => hackLib u.lib)
      ((s.config.flatMap (·.lateItems)).map (·.lib)) := by
    rw [List.forall₂_map_left_iff, List.forall₂_map_right_iff]
    exact h.imp fun u h hs => hs.1.symm
  rwa [List.forall₂_eq_eq_eq] at heq

/-- A name that both sides compare as equal. -/
theorem inLib_hackLib {lib : Option LibStr} {libName : Str} (hexe : ∀ l ∈ lib, l.name ≠ exeLib)
    (h : lib.any (·.name = libName) = true) : inLib libName (hackLib lib) = true := by
  obtain ⟨l, rfl, hname⟩ := (Option.any_eq_true _ _).mp h
  have hname : l.name = libName := by simpa using hname
  subst hname
  have hne : libText (some l) ≠ exeLib := hexe l rfl
  rw [hackLib, if_neg hne]
  simp [inLib, libText]

/-- **One library load**: both sides agree afterwards exactly if it moves only what both move. -/
theorem lateStep_iff (hrefs : s.cfg.RefsOk) (hsame : s.Same) :
    ∃ s', s.step ev = .ok s' ∧ (s'.cfg.RefsOk ∧ s'.Same) ∧ (s.Agree → (s'.Agree ↔ s.Keeps ev)) := by
  obtain ⟨cfg, config⟩ := s
  obtain ⟨libPath, rlist⟩ := ev
  obtain ⟨hnone, hsome⟩ := askLibLoad_spec hrefs rlist (basename libPath)
  unfold LateState.step postprocessDlopen LateState.Keeps
  simp only
  generalize basename libPath = libName at hnone hsome ⊢
  generalize (findLibBounds rlist libName).1 = libStart at hnone hsome ⊢
  -- Nothing happens.
  have hstill : ∀ s', s' = LateState.mk cfg config → (libName ≠ [] → libStart ≠ 0 →
      ¬ ∃ u ∈ cfg.codeItems, inLib libName (hackLib u.lib) = true) →
      (s'.cfg.RefsOk ∧ s'.Same) ∧ (LateState.Agree ⟨cfg, config⟩ → (s'.Agree ↔
        (libName ≠ [] → libStart ≠ 0 → ∀ u ∈ cfg.codeItems, inLib libName (hackLib u.lib) = true →
          (u.isConst = true ∨ ¬ u.lib.any (·.name = libName)) →
            u.codeAddr = u.codeOffs + libStart))) := by
    rintro s' rfl hno
    exact ⟨⟨hrefs, hsame⟩, fun hagree => iff_of_true hagree fun hne h0 u hu hin =>
      absurd ⟨u, hu, hin⟩ (hno hne h0)⟩
  by_cases hname : libName = []
  · rw [if_pos hname]
    exact ⟨_, rfl, hstill _ rfl fun hne => absurd hname hne⟩
  rw [if_neg hname, dlopenLoop_eq (by
    intro load hget
    by_cases h0 : libStart = 0
    · rw [hnone h0] at hget
      cases hget
    · obtain ⟨cfg', hcfg', -⟩ := hsome h0
      rw [hcfg'] at hget
      cases hget
      exact h0)]
  by_cases hasks : config.any (·.asks libName) = true
  · rw [if_pos hasks]
    by_cases h0 : libStart = 0
    · rw [hnone h0]
      exact ⟨_, rfl, hstill _ rfl fun _ hne => absurd h0 hne⟩
    · obtain ⟨cfg', hcfg', hrefs', hitems⟩ := hsome h0
      have hconfig : (config.map (·.setLoad libName libStart)).flatMap (·.lateItems) =
          (config.flatMap (·.lateItems)).map (HackItem.setLoad libName libStart) := by
        rw [List.flatMap_map, List.map_flatMap]
        exact congrArg (config.flatMap ·) (funext setLoad_lateItems)
      rw [hcfg']
      refine ⟨_, rfl, ⟨hrefs', ?_⟩, fun hagree => ?_⟩
      · unfold LateState.Same
        simp only [Option.elim_some, hitems, hconfig, List.forall₂_map_left_iff,
          List.forall₂_map_right_iff]
        refine hsame.imp fun u h => ?_
        unfold CodeItem.setLoad HackItem.setLoad
        rintro ⟨h₁, h₂, h₃⟩
        split <;> split <;> exact ⟨h₁, h₂, h₃⟩
      · unfold LateState.Agree
        simp only [Option.elim_some, hitems, hconfig, List.forall₂_map_left_iff,
          List.forall₂_map_right_iff]
        have hboth := List.Forall₂.mp (fun u h hs ha => And.intro hs ha) hsame hagree
        refine (forall₂_iff_forall hboth fun u h hu => ?_).trans
          ⟨fun hall _ _ => hall, fun hall => hall hname h0⟩
        obtain ⟨⟨hlib, hoffs, hexe⟩, haddr⟩ := hu
        unfold CodeItem.setLoad HackItem.setLoad
        rw [hlib]
        by_cases hmoved : u.isConst = false ∧ u.lib.any (·.name = libName) = true
        · -- Both sides move it.
          rw [if_pos hmoved, if_pos (inLib_hackLib hexe hmoved.2), hoffs]
          refine iff_of_true rfl fun _ hno => ?_
          rcases hno with hconst | hany
          · rw [hmoved.1] at hconst
            cases hconst
          · exact absurd hmoved.2 hany
        · rw [if_neg hmoved]
          have hno : u.isConst = true ∨ ¬ u.lib.any (·.name = libName) = true := by
            by_contra hcon
            obtain ⟨h₁, h₂⟩ := not_or.mp hcon
            exact hmoved ⟨by simpa using h₁, not_not.mp h₂⟩
          by_cases hin : inLib libName (hackLib u.lib) = true
          · rw [if_pos hin, hoffs]
            exact ⟨fun heq _ _ => heq.symm, fun heq => (heq hin hno).symm⟩
          · rw [if_neg hin]
            exact iff_of_true haddr fun hin' => absurd hin' hin
  · rw [if_neg hasks]
    refine ⟨_, rfl, hstill _ rfl ?_⟩
    rintro - - ⟨u, hu, hin⟩
    have hmem : hackLib u.lib ∈ (config.flatMap (·.lateItems)).map (·.lib) := by
      rw [← hsame.libs]
      exact List.mem_map_of_mem hu
    obtain ⟨h, hh, hlib⟩ := List.mem_map.mp hmem
    exact hasks (asks_iff.mpr ⟨h, hh, by rw [hlib]; exact hin⟩)

end Step

/-! ## The start -/

section Start

variable {cfg cfg' : CfgMem} {l : LoadAddrs}

/-- The items of libmemhack are those of ugtrain. -/
theorem hackCfgs_lateItems (cfg : CfgMem) :
    (cfg.hackCfgs.flatMap (·.lateItems)).map (fun h => (h.lib, h.codeOffs)) =
      cfg.codeItems.map fun u => (hackLib u.lib, u.codeAddr) := by
  have hattach : ∀ (grow : Option HackGrow) (cfgs : List HackCfg), cfgs ≠ [] →
      (∀ c ∈ cfgs, c.grow = none) → (attachGrow grow cfgs).flatMap (·.lateItems) =
        cfgs.flatMap (·.lateItems) ++ grow.toList.map fun g => ⟨g.lib, g.codeOffs, g.codeAddr⟩ := by
    intro grow cfgs
    induction cfgs with
    | nil => intro hne; exact absurd rfl hne
    | cons c cfgs ih =>
      intro _ hno
      have hg : c.grow = none := hno c (by simp)
      cases cfgs with
      | nil => simp [attachGrow, HackCfg.lateItems, hg]
      | cons c' cfgs =>
        rw [attachGrow, List.flatMap_cons, ih (by simp) fun x hx => hno x (by simp [hx])]
        simp
  have hclass : ∀ dm : DynMemEntry,
      (dm.hackCfgs.flatMap (·.lateItems)).map (fun h => (h.lib, h.codeOffs)) =
        dm.codeItems.map fun u => (hackLib u.lib, u.codeAddr) := by
    intro dm
    rw [DynMemEntry.hackCfgs, hattach _ _ (by simp [DynMemEntry.essentials]) (by
      intro c hc
      obtain ⟨es, -, rfl⟩ := List.mem_map.mp hc
      rfl)]
    unfold DynMemEntry.codeItems DynMemEntry.essentials
    have hflat : ∀ es : List DynMemEssentials,
        (es.map (·.hackCfg)).flatMap (·.lateItems) =
          es.map fun e => ⟨hackLib e.lib, e.codeAddr, e.codeAddr⟩ := by
      intro es
      induction es with
      | nil => rfl
      | cons e es ih => rw [List.map_cons, List.flatMap_cons, ih]; rfl
    rw [hflat]
    cases dm.grow <;> simp [GrowEntry.hackGrow]
  rw [CfgMem.hackCfgs, List.flatMap_assoc, List.map_flatMap, CfgMem.codeItems, List.map_flatMap]
  exact congrArg (cfg.classes.flatMap ·) (funext hclass)

theorem reloc_codeItems (dm : DynMemEntry) :
    (dm.reloc l).codeItems.map (fun u => (u.lib, u.codeOffs)) =
      dm.codeItems.map fun u => (u.lib, u.codeOffs) := by
  unfold DynMemEntry.codeItems DynMemEntry.reloc
  cases dm.grow <;> simp [GrowEntry.reloc, DynMemEssentials.reloc]

theorem relocCfgs_lateItems (config : List HackCfg) : ∀ s : Str,
    ((relocCfgs config s).flatMap (·.lateItems)).map (fun h => (h.lib, h.codeOffs)) =
      (config.flatMap (·.lateItems)).map fun h => (h.lib, h.codeOffs) := by
  induction config with
  | nil => intro s; rfl
  | cons c config ih =>
    intro s
    have hc : (relocCfg c s).1.lateItems.map (fun h => (h.lib, h.codeOffs)) =
        c.lateItems.map fun h => (h.lib, h.codeOffs) := by
      unfold relocCfg HackCfg.lateItems
      split
      · rfl
      · cases c.grow <;> simp
    rw [relocCfgs, List.flatMap_cons, List.map_append, ih, List.flatMap_cons, List.map_append, hc]

/-- **After the early handling** both sides have the same items. -/
theorem start_same (h : cfg.WellFormed) (hp : cfg.CodeParsed) {offs : Str}
    (hok : handleAslr l cfg = .ok (cfg', offs)) (ibuf : Str) :
    cfg'.RefsOk ∧ LateState.Same ⟨cfg', relocConfig cfg.hackCfgs ibuf⟩ := by
  obtain ⟨hentries, hclasses, hlt⟩ := handleAslr_classes h hok
  have hkeys : cfg'.codeItems.map (fun u => (u.lib, u.codeOffs)) =
      cfg.codeItems.map fun u => (u.lib, u.codeOffs) := by
    rw [CfgMem.codeItems, hclasses, CfgMem.codeItems, List.flatMap_map, List.map_flatMap,
      List.map_flatMap]
    exact congrArg (cfg.classes.flatMap ·) (funext reloc_codeItems)
  have hitems : cfg'.codeItems.map (fun u => (hackLib u.lib, u.codeOffs)) =
      ((relocConfig cfg.hackCfgs ibuf).flatMap (·.lateItems)).map fun h => (h.lib, h.codeOffs) := by
    have hmap := congrArg (List.map fun k : Option LibStr × Ptr => (hackLib k.1, k.2)) hkeys
    rw [List.map_map, List.map_map] at hmap
    rw [relocConfig_eq, relocCfgs_lateItems, hackCfgs_lateItems]
    refine hmap.trans (List.map_congr_left fun u hu => ?_)
    exact congrArg (hackLib u.lib, ·) (hp.codeOffs u hu)
  have hexe : ∀ u ∈ cfg'.codeItems, ∀ lib ∈ u.lib, lib.name ≠ exeLib := by
    intro u hu
    have hmem : (u.lib, u.codeOffs) ∈ cfg.codeItems.map fun u => (u.lib, u.codeOffs) := by
      rw [← hkeys]
      exact List.mem_map_of_mem hu
    obtain ⟨u₀, hu₀, heq⟩ := List.mem_map.mp hmem
    rw [← (Prod.mk.inj heq).1]
    exact hp.lib u₀ hu₀
  refine ⟨⟨?_, ?_⟩, ?_⟩
  · rw [hentries]
    exact ((classRefs_sorted h.sorted none (by simp)).1).imp Nat.ne_of_lt
  · rw [hentries]
    exact hlt
  · rw [← List.forall₂_eq_eq_eq, List.forall₂_map_left_iff, List.forall₂_map_right_iff] at hitems
    refine ((List.forall₂_and_left _ _).mpr ⟨hexe, hitems⟩).imp fun u h hs => ?_
    obtain ⟨h₁, h₂⟩ := hs
    exact ⟨(Prod.mk.inj h₂).1.symm, (Prod.mk.inj h₂).2.symm, h₁⟩

end Start

/-! ## All loads -/

section Late

variable {cfg cfg' : CfgMem}

/-- A class in `liba.so` with a constructor there. -/
def DynMemEntry.inLib (consts : List DynMemEssentials) : DynMemEntry :=
  { (default : DynMemEntry) with
    memSize := 16
    codeAddr := 0x500
    codeOffs := 0x500
    stackOffs := 8
    lib := some ⟨1, "liba.so".toList⟩
    consts := consts
    grow := none }

def DynMemEntry.libConst : DynMemEntry :=
  .inLib [⟨64, 0x600, 0x600, 8, some ⟨2, "liba.so".toList⟩⟩]

/-- The game loads `liba.so`. -/
def LibLoad.liba : LibLoad :=
  ⟨"/lib/liba.so".toList, [⟨0x5000, 0x1000, .code, true, "/lib/liba.so".toList⟩]⟩

theorem single_codeParsed {dynmem : DynMemEntry}
    (h : ∀ u ∈ dynmem.codeItems, u.codeOffs = u.codeAddr ∧ ∀ lib ∈ u.lib, lib.name ≠ exeLib) :
    (CfgMem.single dynmem).CodeParsed := by
  have hitems : (CfgMem.single dynmem).codeItems = dynmem.codeItems := by
    simp [CfgMem.codeItems, CfgMem.classes, CfgMem.single, classRefs]
  refine ⟨fun u hu => ?_, fun u hu => ?_⟩
  · rw [hitems] at hu
    exact (h u hu).1
  · rw [hitems] at hu
    exact (h u hu).2

end Late

end UgTrain
