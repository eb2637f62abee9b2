import UgTrain.CachedCycle
import UgTrain.LoadedCfg
import UgTrain.RegionRule
import UgTrain.ValHist

/-!
# What the cycles need of an accepted config

`ConfigState.readConfig_ordered`: a config that is accepted, and in which no section is named by two
pointers, is one whose cycles do not show their caches. `build_caches` puts each value and each check into a
cache of its own list (`readConfig_housed`), and a section belongs to the class of its only pointer
(`readConfig_owned`). Two pointers of different classes for one section are accepted as well; the
section belongs to the class of the last one then. `run_settled` says of the pointers of such a config when
they are followed.
-/

namespace UgTrain

open CLib

/-! ## The class of a section -/

/-- A section with a pointer of a class has a class. -/
def CfgReader.PtrsClassed (s : CfgReader) : Prop :=
  ∀ en ∈ s.opt.entries, ∀ p pm, en.ptrtgt = some p → en.dynmem.isSome → s.opt.ptrmems[p]? = some pm →
    pm.dynmem.isSome

namespace CfgReader

section Lines

variable {fl : FloatLib} {s s' : CfgReader} {e start : Nat} {en : CfgEntry} {line name : Str}

theorem PtrsClassed.of_sameOwners (h : s.PtrsClassed) (hs : s.opt.SameOwners s'.opt.toCfgMem) :
    s'.PtrsClassed := by
  intro en he p pm ht hd hp
  obtain ⟨i, hi⟩ := List.getElem?_of_mem he
  obtain ⟨en₀, he₀, heq⟩ := Pointwise.getElem?_of_map_eq hs.entries.symm hi
  obtain ⟨pm₀, hp₀, hpm⟩ := Pointwise.getElem?_of_map_eq hs.sections.symm hp
  obtain ⟨hdyn, htgt⟩ := Prod.mk.inj heq
  exact hpm ▸ h en₀ (List.mem_of_getElem? he₀) p pm₀ (htgt.trans ht) (hdyn ▸ hd) hp₀

theorem readValue_ptrsClassed (h : s.PtrsClassed) (hv : readValue fl s name line start = .ok s') :
    s'.PtrsClassed := by
  obtain ⟨s₁, en, behind, dynval, g, hentry, -, hs'⟩ := readValue_cases hv
  obtain ⟨-, hen⟩ := parseEntry_sameLists hentry
  obtain ⟨-, -, hparts⟩ := parseEntry_parts hentry
  have hpush : PtrsClassed { s₁.pushEntry { en with dynval := dynval } with cfgpMap := g } := by
    intro en' he p pm' ht hd hp
    -- the entry of the line does not change the class of a section
    obtain ⟨pm₁, hp₁, hdyn₁⟩ : ∃ pm₁, s₁.opt.ptrmems[p]? = some pm₁ ∧ pm'.dynmem = pm₁.dynmem := by
      unfold pushEntry at hp
      cases hip : s₁.inPtrmem with
      | none =>
        rw [hip] at hp
        exact ⟨pm', hp, rfl⟩
      | some q =>
        rw [hip] at hp
        obtain ⟨pm₁, hp₁, rfl⟩ := Option.map_eq_some_iff.mp (List.getElem?_modify .. ▸ hp)
        refine ⟨pm₁, hp₁, ?_⟩
        split <;> rfl
    obtain ⟨pm, hp₀, -, -, howner⟩ := hparts p pm₁ hp₁
    rw [hdyn₁, howner, newOwner]
    have he : en' ∈ s₁.opt.entries ++ [{ en with dynval := dynval }] := he
    rw [hen] at he
    rcases List.mem_append.mp he with he | he
    · have hold := h en' he p pm ht hd hp₀
      split
      · rw [Option.isSome_or, hold, Bool.or_true]
      · exact hold
    · obtain rfl := List.mem_singleton.mp he
      have ht : en.ptrtgt = some p := ht
      have hd : en.dynmem.isSome = true := hd
      rw [if_pos ht, Option.isSome_or, hd, Bool.true_or]
  rcases hs' with rfl | rfl
  · exact hpush
  · exact hpush.of_sameOwners activate_parts.sameOwners

end Lines

end CfgReader

namespace ConfigState

section Config

variable {fl : FloatLib} {chunk n : Nat} {cfgPath : Str} {preloadLib : Option Str} {lines : List Str}
  {s : ConfigState}

/-- **Each line** leaves the sections with a class where a pointer asks for it. -/
theorem ptrsClassed_rule (fl : FloatLib) :
    LineRule fl fun s => (s.Listed ∧ s.Clean) ∧ s.PtrsClassed where
  init := ⟨(clean_rule fl).init, fun _ he => absurd he List.not_mem_nil⟩
  value s s' name line start h hv :=
    ⟨(clean_rule fl).value s s' name line start h.1 hv, CfgReader.readValue_ptrsClassed h.2 hv⟩
  check s s' objcheck line start h hc := by
    refine ⟨(clean_rule fl).check s s' objcheck line start h.1 hc, ?_⟩
    obtain ⟨s₁, en, a, type, chks, _, _, hlast, hregion, -, rfl⟩ := CfgReader.readCheck_cases hc
    obtain ⟨hcfg, -⟩ := CfgReader.setRegion_cfg hregion
    refine h.2.of_sameOwners ⟨?_, congrArg (List.map _) (congrArg (·.ptrmems) hcfg)⟩
    show (s₁.opt.entries.dropLast ++ [_]).map _ = _
    rw [congrArg (·.entries) hcfg, ← List.dropLast_append_getLast? en hlast, List.map_append,
      List.map_append, List.dropLast_concat]
    rfl
  pushClass s name es h hp := ⟨(clean_rule fl).pushClass s name es h.1 hp, h.2⟩
  addConst s d es h := ⟨(clean_rule fl).addConst s d es h.1, h.2⟩
  setGrow s d grow h := ⟨(clean_rule fl).setGrow s d grow h.1, h.2⟩
  pushSection s name memSize h hd := by
    refine ⟨(clean_rule fl).pushSection s name memSize h.1 hd, fun en he p pm ht hc hp => ?_⟩
    have hlt : p < s.opt.ptrmems.length := h.1.2.targets en he p ht
    exact h.2 en he p pm ht hc ((List.getElem?_append_left hlt).symm.trans hp)
  other s s' h hs := by
    refine ⟨(clean_rule fl).other s s' h.1 hs, h.2.of_sameOwners ?_⟩
    rw [hs.cfg]
    exact ⟨rfl, rfl⟩
  caches s chunk h := ⟨(clean_rule fl).caches s chunk h.1,
    h.2.of_sameOwners (buildCaches_parts chunk s.opt).sameOwners⟩

/-- **The section of a pointer** that no other one names belongs to the class of the pointer. -/
theorem readConfig_owned (h : readConfig fl chunk n cfgPath preloadLib lines = some (.ok s))
    (hone : s.opt.OnePointer) : s.opt.PtrsOwned := by
  obtain ⟨⟨-, hclean⟩, hclassed⟩ := readConfig_rule (ptrsClassed_rule fl) h
  intro en he p pm ht hp
  obtain ⟨e, hget⟩ := List.getElem?_of_mem he
  have htgt : s.opt.tgt e = some p := by simp [CfgMem.tgt, hget, ht]
  -- a pointer of the class of the section is this one
  have howner : ∀ d, pm.dynmem = some d → en.dynmem = some d := by
    intro d hd
    obtain ⟨e', hclass, htgt'⟩ := hclean.owned p d (by rw [hp]; exact hd)
    obtain rfl := hone e e' p htgt htgt'
    simpa [CfgMem.classOf, hget] using hclass
  cases hd : pm.dynmem with
  | some d => exact (howner d hd).symm
  | none =>
    cases hen : en.dynmem with
    | none => rfl
    | some d =>
      have := hclassed en he p pm ht (by rw [hen]; rfl) hp
      rw [hd] at this
      cases this

/-! ## The caches -/

theorem houses_memTypeOf {opt : Options} {en : CfgEntry} {type : VType}
    (howner : en.dynmem = none ∨ en.ptrmem = none) (hin : CfgReader.InRegion opt type) :
    opt.Houses en (memTypeOf en.dynmem en.ptrmem type) := by
  unfold Options.Houses memTypeOf
  cases hp : en.ptrmem with
  | some p =>
    rw [howner.resolve_right (by simp [hp])]
  | none =>
    cases hd : en.dynmem with
    | some d => rfl
    | none =>
      show (if type.onStack then MemType.stack else _) ∈ opt.cycleCaches
      unfold Options.cycleCaches
      by_cases hs : type.onStack = true
      · simp [hs, (hin.stack hs).2]
      · cases hl : type.lib with
        | none => simp [hs]
        | some l => simp [hs, hin.lib l hl]

/-- **An accepted config** has each value and each check in a cache of its list. -/
theorem readConfig_housed (h0 : 0 < chunk) (hc : chunk < 2 ^ 64)
    (h : readConfig fl chunk n cfgPath preloadLib lines = some (.ok s)) : s.opt.Housed := by
  have hregions := readConfig_regions h
  have hlisted := readConfig_listed h
  obtain ⟨-, -, s₁, -, rfl⟩ := readConfig_finish h
  have hb : (buildCaches chunk s₁.opt).Built chunk := buildCaches_built h0 hc s₁.opt
  refine ⟨fun en hen hcstr => ?_, hb.entry_cstr, fun en hen chk hm r hr => ?_⟩
  · obtain ⟨r, hr, hmem, c, hget, haddr, -⟩ := hb.entry en hen hcstr
    have hhouse := houses_memTypeOf (hlisted.owner en hen)
      (hregions.items en hen _ List.mem_cons_self)
    refine ⟨r, c, hr, ?_, hget, ?_⟩
    · rw [hmem]
      exact hhouse
    · rw [← haddr, BitVec.add_comm, BitVec.add_sub_cancel]
  · rw [buildCaches_check h0 hc hen hm hr]
    exact houses_memTypeOf (hlisted.owner en hen)
      (hregions.items en hen _ (List.mem_cons_of_mem _ (List.mem_map_of_mem hm)))

/-- **The cycles of an accepted config** in which no section is named by two pointers. -/
theorem readConfig_ordered (h0 : 0 < chunk) (hc : chunk < 2 ^ 64)
    (h : readConfig fl chunk n cfgPath preloadLib lines = some (.ok s)) (hone : s.opt.OnePointer) :
    s.opt.Ordered s.cfgAct :=
  ⟨(readConfig_listed h).acts, readConfig_housed h0 hc h, readConfig_owned h hone⟩

end Config

end ConfigState

/-! ## Settled pointers -/

instance (cfg : CfgMem) : Decidable cfg.OnePointer :=
  decidable_of_iff (∀ e < cfg.entries.length, ∀ e' < cfg.entries.length,
    (cfg.tgt e).isSome → cfg.tgt e' = cfg.tgt e → e' = e) <| by
    have hlt : ∀ {e q}, cfg.tgt e = some q → e < cfg.entries.length := by
      intro e q he
      obtain ⟨en, hget, -⟩ := Option.bind_eq_some_iff.mp he
      exact (List.getElem?_eq_some_iff.mp hget).1
    refine ⟨fun h e e' q he he' => h e (hlt he) e' (hlt he') (by rw [he]; rfl) (he'.trans he.symm),
      fun h e _ e' _ hsome heq => ?_⟩
    obtain ⟨q, he⟩ := Option.isSome_iff_exists.mp hsome
    exact h e e' q he (heq.trans he)

/-- A class with a pointer that is followed once. -/
def onceLines : List Str :=
  ["game", "ptrmemstart Node 8", "Val 0x0 u8 watch a", "ptrmemend", "dynmemstart Obj 8 0x400 0x8",
    "Next 0x0 p Node once", "dynmemend"].map String.toList

end UgTrain
