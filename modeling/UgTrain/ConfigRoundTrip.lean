import UgTrain.EarlyAslr

/-!
# What libmemhack has after the config transfer

`config_round_trip`: the entries in libmemhack are, section by section, those of the sections that
have a value: the class, its constructors in their order, and the growth rule with the last of
these.

* The library is that of the section, where no library stands for `exe`.
* A section that declares constructors and a growth rule has the rule at its last constructor, not
  at the class (`config_moves_grow`).
* `;` separates the fields of the message and may not stand in the name of a library.
-/

namespace UgTrain

open CLib

/-! ## What a section declares -/

/-- The entry has the values of a class or of a constructor. -/
structure HackCfg.Carries (c : HackCfg) (es : DynMemEssentials) : Prop where
  memSize : c.memSize = es.memSize
  codeAddr : c.codeAddr = es.codeAddr
  stackOffs : c.stackOffs = es.stackOffs
  lib : c.lib.getD exeLib = libText es.lib

/-- The growth rule has the values of a growth rule. -/
structure HackGrow.Carries (g : HackGrow) (grow : GrowEntry) : Prop where
  sizeMin : g.sizeMin = grow.sizeMin
  sizeMax : g.sizeMax = grow.sizeMax
  type : g.type = grow.type
  add : g.add = grow.add
  codeAddr : g.codeAddr = grow.codeAddr
  stackOffs : g.stackOffs = grow.stackOffs
  lib : g.lib.getD exeLib = libText grow.lib

/-- The entries are those of the section, the growth rule is at the one at `growAt`. -/
structure DynMemEntry.Arrives (dynmem : DynMemEntry) (growAt : Nat) (l : List HackCfg) : Prop where
  essentials : List.Forall₂ HackCfg.Carries l dynmem.essentials
  grow : ∀ (i : Nat) (c : HackCfg), l[i]? = some c →
    Option.Rel HackGrow.Carries c.grow (if i = growAt then dynmem.grow else none)

/-- The sections that have a value, in their order. -/
def CfgMem.sections (cfg : CfgMem) : List DynMemEntry :=
  ((List.range cfg.dynmems.length).filter fun d => some d ∈ cfg.entries.map (·.dynmem)).filterMap
    (cfg.dynmems[·]?)

/-- The config array is made of the entries of the sections. -/
def CfgMem.Transferred (cfg : CfgMem) (growAt : DynMemEntry → Nat) (config : List HackCfg) : Prop :=
  ∃ ls : List (List HackCfg), config = ls.flatten ∧
    List.Forall₂ (fun dynmem l => dynmem.Arrives (growAt dynmem) l) cfg.sections ls

/-! ## The entries of a section -/

section Section

variable {cfg : CfgMem} {dynmem : DynMemEntry}

theorem carries_hackGrow (grow : GrowEntry) : grow.hackGrow.Carries grow :=
  ⟨rfl, rfl, rfl, rfl, rfl, rfl, getD_hackLib grow.lib⟩

theorem attachGrow_getElem? (grow : Option HackGrow) (l : List HackCfg) (i : Nat) :
    (attachGrow grow l)[i]? =
      (l[i]?).map fun c => if i + 1 = l.length then { c with grow := grow } else c := by
  induction l generalizing i with
  | nil => simp [attachGrow]
  | cons c l ih =>
    cases l with
    | nil => cases i <;> simp [attachGrow]
    | cons c' l =>
      rw [attachGrow]
      cases i with
      | zero => simp
      | succ i =>
        rw [List.getElem?_cons_succ, ih i, List.getElem?_cons_succ]
        simp

/-- **The entries of one section.** -/
theorem hackCfgs_arrives (dynmem : DynMemEntry) :
    dynmem.Arrives dynmem.consts.length dynmem.hackCfgs := by
  have hlen : (dynmem.essentials.map (·.hackCfg)).length = dynmem.consts.length + 1 := by
    simp [DynMemEntry.essentials]
  have hget : ∀ i, dynmem.hackCfgs[i]? = (dynmem.essentials[i]?).map fun es =>
      if i = dynmem.consts.length then
        { es.hackCfg with grow := dynmem.grow.map (·.hackGrow) } else es.hackCfg := by
    intro i
    rw [DynMemEntry.hackCfgs, attachGrow_getElem?, hlen, List.getElem?_map, Option.map_map]
    simp only [Nat.add_right_cancel_iff]
    rfl
  constructor
  · rw [List.forall₂_iff_get]
    refine ⟨by simp [hackCfgs_length, DynMemEntry.essentials]; omega, fun i hi hi' => ?_⟩
    have hes : dynmem.essentials[i]? = some (dynmem.essentials.get ⟨i, hi'⟩) := by simp
    have heq := hget i
    rw [hes, Option.map_some, List.getElem?_eq_getElem hi] at heq
    rw [List.get_eq_getElem, Option.some.inj heq]
    split <;> exact ⟨rfl, rfl, rfl, getD_hackLib _⟩
  · intro i c hc
    rw [hget i] at hc
    obtain ⟨es, -, rfl⟩ := Option.map_eq_some_iff.mp hc
    by_cases hi : i = dynmem.consts.length
    · rw [if_pos hi, if_pos hi]
      cases dynmem.grow with
      | none => exact .none
      | some grow => exact .some (carries_hackGrow grow)
    · rw [if_neg hi, if_neg hi]
      exact .none

/-- A section with a value is taken. -/
theorem classRefs_of_refs {es : List CfgEntry} {d : Nat} (h : Refs es d) :
    ∀ old : Option Nat, some d = old ∨ d ∈ classRefs old es := by
  induction es with
  | nil => cases h
  | cons en es ih =>
    intro old
    rw [classRefs]
    rcases List.mem_cons.mp h with hen | h
    · simp only [← hen]
      by_cases hold : some d = old
      · exact Or.inl hold
      · rw [if_neg hold]
        exact Or.inr List.mem_cons_self
    · cases hen : en.dynmem with
      | none => exact ih h old
      | some d' =>
        simp only
        by_cases hold : some d' = old
        · rw [if_pos hold]
          exact ih h old
        · rw [if_neg hold]
          right
          rcases ih h (some d') with heq | hmem
          · cases heq
            exact List.mem_cons_self
          · exact List.mem_cons_of_mem _ hmem

/-- **The classes that are sent** are the sections that have a value. -/
theorem classes_eq_sections (h : cfg.WellFormed) : cfg.classes = cfg.sections := by
  have hsort := (classRefs_sorted h.sorted none (by simp)).1
  refine congrArg (List.filterMap (cfg.dynmems[·]?)) ?_
  refine List.Perm.eq_of_pairwise (fun a b _ _ (h₁ : a < b) h₂ => absurd h₁ (by omega)) hsort
    ((List.pairwise_lt_range).filter _) ?_
  refine (List.perm_ext_iff_of_nodup (hsort.imp ne_of_lt) (List.nodup_range.filter _)).mpr
    fun d => ?_
  rw [List.mem_filter, List.mem_range]
  constructor
  · intro hd
    have href := mem_classRefs hd
    exact ⟨h.valid d href, by simpa [Refs] using href⟩
  · rintro ⟨-, href⟩
    have href : Refs cfg.entries d := by simpa [Refs] using href
    exact (classRefs_of_refs href none).resolve_left (by simp)

end Section

/-! ## The round trip -/

section RoundTrip

variable {cfg : CfgMem} {useGbt : Bool} {text : Str}

/-- **Config transfer**: number, flag and entries arrive as they are declared. -/
theorem config_round_trip (h : cfg.WellFormed) (hc : cfg.CleanLibs)
    (hp : prepareDynmem useGbt cfg = some text) :
    ∃ config, readConfig (readInput text) = some (useGbt, config) ∧
      (∃ r, text = printDec config.length ++ ';' :: r) ∧
      cfg.Transferred (·.consts.length) config := by
  refine ⟨cfg.hackCfgs, readConfig_prepareDynmem h hc hp, ?_,
    cfg.classes.map DynMemEntry.hackCfgs, List.flatMap_def, ?_⟩
  · obtain ⟨hne, -, rfl⟩ := prepareDynmem_eq h hp
    obtain ⟨c, cfgs, hcfgs⟩ := List.exists_cons_of_ne_nil hne
    rw [hcfgs, cfgsText_cons]
    cases useGbt with
    | true => exact ⟨gbtCmd ++ (';' :: (c.text ++ cfgsText cfgs)) ++ ['\n', nul], by simp⟩
    | false => exact ⟨c.text ++ cfgsText cfgs ++ ['\n', nul], by simp⟩
  · rw [← classes_eq_sections h, List.forall₂_map_right_iff]
    exact List.forall₂_same.mpr fun dynmem _ => hackCfgs_arrives dynmem

theorem config_round_trip_example : ∃ c text,
    ConfigState.readConfig CfgReader.noFloats 8 0 "game.conf".toList none ConfigState.threeClasses =
        some (.ok c) ∧ prepareDynmem true c.opt.toCfgMem = some text ∧
      ∃ config, readConfig (readInput text) = some (true, config) ∧
        (∃ r, text = printDec config.length ++ ';' :: r) ∧
        c.opt.Transferred (·.consts.length) config := by
  obtain ⟨c, hread, hc⟩ := ConfigState.exists_read ConfigState.threeClasses
    (fun c => decide c.opt.CleanLibs && (prepareDynmem true c.opt.toCfgMem).isSome)
    (by decide +kernel)
  obtain ⟨hclean, htext⟩ := Bool.and_eq_true_iff.mp hc
  obtain ⟨text, htext⟩ := Option.isSome_iff_exists.mp htext
  exact ⟨c, text, hread, htext, config_round_trip (ConfigState.readConfig_wellFormed hread)
    (of_decide_eq_true hclean) htext⟩

/-- A class in a library whose name holds a separator. -/
def DynMemEntry.splitLib : DynMemEntry :=
  { (default : DynMemEntry) with
    memSize := 16
    codeAddr := 0x500
    stackOffs := 8
    lib := some ⟨1, "a;b".toList⟩
    grow := none }

theorem single_transferred {dynmem : DynMemEntry} {growAt : DynMemEntry → Nat}
    {config : List HackCfg} (h : (CfgMem.single dynmem).Transferred growAt config) :
    dynmem.Arrives (growAt dynmem) config := by
  obtain ⟨ls, rfl, hall⟩ := h
  have hsec : (CfgMem.single dynmem).sections = [dynmem] := by
    simp [CfgMem.sections, CfgMem.single]
  rw [hsec] at hall
  obtain ⟨l, ls, harr, hnil, rfl⟩ := List.forall₂_cons_left_iff.mp hall
  rw [List.forall₂_nil_left_iff.mp hnil]
  simpa using harr

/-- The growth rule of a section with a constructor is not at its class, and a separator cuts off
the name of a library. -/
theorem config_moves_grow :
    ((CfgMem.single .growConst).WellFormed ∧ ∃ text config,
      prepareDynmem false (.single .growConst) = some text ∧
        readConfig (readInput text) = some (false, config) ∧
        ¬ (CfgMem.single .growConst).Transferred (fun _ => 0) config) ∧
    (CfgMem.single .splitLib).WellFormed ∧ ∃ text config,
      prepareDynmem false (.single .splitLib) = some text ∧
        readConfig (readInput text) = some (false, config) ∧
        ∀ growAt, ¬ (CfgMem.single .splitLib).Transferred growAt config := by
  refine ⟨⟨single_wellFormed (by decide) (by decide) (by decide),
      "2;0;0x0;0x0;exe;64;0x500;0x8;;grow;16;64;+8;0x700;0x8;liba.so\n\x00".toList,
      DynMemEntry.growConst.hackCfgs, by decide, by decide, fun h => ?_⟩,
    single_wellFormed (by decide) (by decide) (by decide),
    "1;16;0x500;0x8;a;b\n\x00".toList, [⟨16, 0x500, 0x500, 8, some "a".toList, none⟩],
    by decide, by decide, fun growAt h => ?_⟩
  · have hrel := (single_transferred h).grow 0 _ rfl
    cases hrel
  · obtain ⟨es, l, hes, -, heq⟩ :=
      List.forall₂_cons_left_iff.mp (single_transferred h).essentials
    cases heq
    exact absurd hes.lib (by decide)

end RoundTrip

end UgTrain
