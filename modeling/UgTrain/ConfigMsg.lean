import UgTrain.DynMemMsg
import UgTrain.HackMsg
import UgTrain.LibMemHack
import UgTrain.Objects

/-!
# The config message is read as it was written

`hackCfgs` are the entries that a class stands for in libmemhack: the class, its constructors, and
its growth rule with the last of these. `readConfig_prepareDynmem`: what libmemhack reads are the
entries of all classes, one class after the other.

* A library name is clean if it can stand between two separators.
* `CfgMem.WellFormed` is what the config parser gives: numbers of 32 bits, a library string of its
  own for each class, and the entries of a class together.
-/

namespace UgTrain

open CLib

/-! ## Separators -/

/-- A text without separator, line break or end. -/
def Clean (s : Str) : Prop := ';' ∉ s ∧ '\n' ∉ s ∧ nul ∉ s

instance (s : Str) : Decidable (Clean s) := inferInstanceAs (Decidable (_ ∧ _))

theorem setIbufStart_sep {p : Str} (hp : Clean p) (r : Str) :
    setIbufStart (p ++ ';' :: r) = r := by
  rw [setIbufStart, strchr_append_cons p r hp.1 hp.2.2 (by decide)]
  show (p ++ ';' :: r).drop (p.length + 1) = r
  rw [← List.drop_drop]
  simp

theorem strchr_clean {p : Str} (hp : Clean p) : strchr p ';' = none := by
  rw [strchr_eq_none (by decide), cstr_of_not_mem hp.2.2]
  exact hp.1

theorem setIbufStart_end {p : Str} (hp : Clean p) : setIbufStart p = p := by
  rw [setIbufStart, strchr_clean hp]

theorem clean_printHex (a : Ptr) : Clean (printHex a) :=
  ⟨not_mem_printHex (by decide) (by decide), not_mem_printHex (by decide) (by decide),
    not_mem_printHex (by decide) (by decide)⟩

theorem clean_printDec (n : Nat) : Clean (printDec n) :=
  ⟨not_mem_printDec (by decide), not_mem_printDec (by decide), not_mem_printDec (by decide)⟩

theorem clean_cons {c : Char} {s : Str} (hc : c ≠ ';' ∧ c ≠ '\n' ∧ c ≠ nul) (hs : Clean s) :
    Clean (c :: s) := by
  unfold Clean at hs ⊢
  simp only [List.mem_cons, not_or]
  exact ⟨⟨hc.1.symm, hs.1⟩, ⟨hc.2.1.symm, hs.2.1⟩, ⟨hc.2.2.symm, hs.2.2⟩⟩

theorem setCodeLib_sep {lib : Str} (hl : Clean lib) (r : Str) :
    setCodeLib (lib ++ ';' :: r) = (if lib = exeLib then none else some lib, r) := by
  rw [setCodeLib, setIbufStart_sep hl, strchr_append_cons lib r hl.1 hl.2.2 (by decide)]
  simp only [List.take_left']

theorem setCodeLib_end {lib : Str} (hl : Clean lib) :
    setCodeLib lib = (if lib = exeLib then none else some lib, lib) := by
  rw [setCodeLib, setIbufStart_end hl, strchr_clean hl, cstr_of_not_mem hl.2.2]

/-! ## Numbers between separators -/

section Numbers

variable {r : Str}

theorem scanPtr_sep (a : Ptr) : scanPtr (printHex a ++ ';' :: r) = some (a, ';' :: r) :=
  scanPtr_printHex a (noDigit_cons.mpr (by decide)) (by simp)

theorem scanLong_sep {a : SizeT} (ha : a.toNat < 2 ^ 32) :
    scanLong (printDec a.toNat ++ ';' :: r) = some (a, ';' :: r) := by
  rw [scanLong_printDec _ (by omega) (noDigit_cons.mpr (by decide)) (by simp)]
  simp

theorem scanLit_sep : scanLit [';'] (';' :: r) = some r := rfl

/-- The numbers of an item. -/
theorem scanEssentials_text {memSize : SizeT} (hs : memSize.toNat < 2 ^ 32) (codeAddr stackOffs : Ptr) :
    scanEssentials (printDec memSize.toNat ++ ';' :: (printHex codeAddr ++ ';' ::
      (printHex stackOffs ++ ';' :: r))) = some (memSize, codeAddr, stackOffs) := by
  simp only [scanEssentials, scanLong_sep hs, scanLit_sep, scanPtr_sep, bind, Option.bind, pure]

/-- The numbers of a growth rule. -/
theorem scanGrow_text {sizeMin sizeMax : SizeT} (hmin : sizeMin.toNat < 2 ^ 32)
    (hmax : sizeMax.toNat < 2 ^ 32) (type : GrowType) (add : U32) (codeAddr stackOffs : Ptr) :
    scanGrow (printDec sizeMin.toNat ++ ';' :: (printDec sizeMax.toNat ++ ';' ::
      (type.opCh :: (printDec add.toNat ++ ';' :: (printHex codeAddr ++ ';' ::
        (printHex stackOffs ++ ';' :: r)))))) =
      some ⟨sizeMin, sizeMax, type, add, codeAddr, codeAddr, stackOffs, none⟩ := by
  have hadd : scanULong 10 (printDec add.toNat ++ ';' :: (printHex codeAddr ++ ';' ::
      (printHex stackOffs ++ ';' :: r))) =
      some (BitVec.ofNat 64 add.toNat, ';' :: (printHex codeAddr ++ ';' ::
        (printHex stackOffs ++ ';' :: r))) :=
    scanULong_printDec _ (by omega) (noDigit_cons.mpr (by decide)) (by simp)
  cases type <;>
    simp [scanGrow, scanLong_sep hmin, scanLong_sep hmax, scanLit_sep, scanPtr_sep, GrowType.opCh,
      scanChar, nul, hadd, bind, Option.bind, pure]

end Numbers

/-! ## The entries of a class -/

/-- The library as libmemhack keeps it: `none` for the executable. -/
def hackLib (lib : Option LibStr) : Option Str :=
  if libText lib = exeLib then none else some (libText lib)

def DynMemEssentials.hackCfg (es : DynMemEssentials) : HackCfg :=
  ⟨es.memSize, es.codeAddr, es.codeAddr, es.stackOffs, hackLib es.lib, none⟩

def GrowEntry.hackGrow (grow : GrowEntry) : HackGrow :=
  ⟨grow.sizeMin, grow.sizeMax, grow.type, grow.add, grow.codeAddr, grow.codeAddr, grow.stackOffs,
    hackLib grow.lib⟩

/-- The growth rule goes to the last entry. -/
def attachGrow (grow : Option HackGrow) : List HackCfg → List HackCfg
  | [] => []
  | [cfg] => [{ cfg with grow := grow }]
  | cfg :: cfg' :: cfgs => cfg :: attachGrow grow (cfg' :: cfgs)

/-- The class and its constructors. -/
def DynMemEntry.essentials (dynmem : DynMemEntry) : List DynMemEssentials :=
  dynmem.toDynMemEssentials :: dynmem.consts

def DynMemEntry.hackCfgs (dynmem : DynMemEntry) : List HackCfg :=
  attachGrow (dynmem.grow.map (·.hackGrow)) (dynmem.essentials.map (·.hackCfg))

theorem attachGrow_length (grow : Option HackGrow) (cfgs : List HackCfg) :
    (attachGrow grow cfgs).length = cfgs.length := by
  induction cfgs with
  | nil => rfl
  | cons cfg cfgs ih =>
    cases cfgs with
    | nil => rfl
    | cons cfg' cfgs => simp [attachGrow, ih]

theorem hackCfgs_length (dynmem : DynMemEntry) :
    dynmem.hackCfgs.length = 1 + dynmem.consts.length := by
  rw [DynMemEntry.hackCfgs, attachGrow_length]
  simp [DynMemEntry.essentials]
  omega

/-! ## Reading an entry -/

/-- The text from behind the first separator on. -/
def HackGrow.text (grow : HackGrow) : Str :=
  printDec grow.sizeMin.toNat ++ ';' :: (printDec grow.sizeMax.toNat ++ ';' ::
    (grow.type.opCh :: (printDec grow.add.toNat ++ ';' :: (printHex grow.codeAddr ++ ';' ::
      (printHex grow.stackOffs ++ ';' :: grow.lib.getD exeLib)))))

def HackCfg.text (cfg : HackCfg) : Str :=
  printDec cfg.memSize.toNat ++ ';' :: (printHex cfg.codeAddr ++ ';' ::
    (printHex cfg.stackOffs ++ ';' :: (cfg.lib.getD exeLib ++
      cfg.grow.elim [] fun grow => ';' :: (growTag ++ grow.text))))

/-- The library is clean and not the name of the executable. -/
def LibOk (lib : Option Str) : Prop := ∀ name ∈ lib, Clean name ∧ name ≠ exeLib

/-- The library, and what is behind it. -/
theorem LibOk.setCodeLib_sep {lib : Option Str} (h : LibOk lib) (r : Str) :
    setCodeLib (lib.getD exeLib ++ ';' :: r) = (lib, r) := by
  cases lib with
  | none => exact UgTrain.setCodeLib_sep (by decide) r
  | some name =>
    obtain ⟨hc, hne⟩ := h name rfl
    rw [Option.getD_some, UgTrain.setCodeLib_sep hc, if_neg hne]

theorem LibOk.setCodeLib_end {lib : Option Str} (h : LibOk lib) :
    setCodeLib (lib.getD exeLib) = (lib, lib.getD exeLib) := by
  cases lib with
  | none => exact UgTrain.setCodeLib_end (by decide)
  | some name =>
    obtain ⟨hc, hne⟩ := h name rfl
    rw [Option.getD_some, UgTrain.setCodeLib_end hc, if_neg hne]

/-- A growth rule that can be read back. -/
structure HackGrow.Ok (grow : HackGrow) : Prop where
  sizeMin : grow.sizeMin.toNat < 2 ^ 32
  sizeMax : grow.sizeMax.toNat < 2 ^ 32
  codeOffs : grow.codeOffs = grow.codeAddr
  lib : LibOk grow.lib

/-- An entry that can be read back. -/
structure HackCfg.Ok (cfg : HackCfg) : Prop where
  memSize : cfg.memSize.toNat < 2 ^ 32
  codeOffs : cfg.codeOffs = cfg.codeAddr
  lib : LibOk cfg.lib
  grow : ∀ grow ∈ cfg.grow, grow.Ok

/-- The five separators before the library of a growth rule. -/
theorem setIbufStart_grow (grow : HackGrow) (r : Str) :
    setIbufStart^[5] (grow.text ++ r) = grow.lib.getD exeLib ++ r := by
  have hop : Clean (grow.type.opCh :: printDec grow.add.toNat) := by
    refine clean_cons ?_ (clean_printDec _)
    cases grow.type <;> decide
  simp only [HackGrow.text, Function.iterate_succ, Function.iterate_zero, Function.comp, id,
    List.append_assoc, List.cons_append]
  rw [setIbufStart_sep (clean_printDec _), setIbufStart_sep (clean_printDec _),
    ← List.cons_append, setIbufStart_sep hop, setIbufStart_sep (clean_printHex _),
    setIbufStart_sep (clean_printHex _)]

theorem setIbufStart_cfg (cfg : HackCfg) (r : Str) :
    setIbufStart^[3] (cfg.text ++ r) = cfg.lib.getD exeLib ++
      (cfg.grow.elim [] (fun grow => ';' :: (growTag ++ grow.text)) ++ r) := by
  simp only [HackCfg.text, Function.iterate_succ, Function.iterate_zero, Function.comp, id,
    List.append_assoc, List.cons_append]
  rw [setIbufStart_sep (clean_printDec _), setIbufStart_sep (clean_printHex _),
    setIbufStart_sep (clean_printHex _)]

/-- What is behind a growth rule: nothing, or a separator. -/
theorem readGrow_text {grow : HackGrow} (h : grow.Ok) (r : Str) :
    readGrow (grow.text ++ ';' :: r) = some (grow, r) ∧
      ∃ s, readGrow grow.text = some (grow, s) := by
  obtain ⟨sizeMin, sizeMax, type, add, codeAddr, codeOffs, stackOffs, lib⟩ := grow
  obtain ⟨hmin, hmax, hoffs, hlib⟩ := h
  simp only at hmin hmax hoffs hlib
  subst hoffs
  have hskip := setIbufStart_grow ⟨sizeMin, sizeMax, type, add, codeOffs, codeOffs, stackOffs, lib⟩
  constructor
  · rw [readGrow, hskip, hlib.setCodeLib_sep]
    simp only [HackGrow.text, List.append_assoc, List.cons_append,
      scanGrow_text hmin hmax]
    rfl
  · have hskip0 := hskip []
    rw [List.append_nil, List.append_nil] at hskip0
    refine ⟨lib.getD exeLib, ?_⟩
    rw [readGrow, hskip0, hlib.setCodeLib_end]
    simp only [HackGrow.text, scanGrow_text hmin hmax]
    rfl

/-- The text does not go on with a growth rule. -/
def NoGrow (s : Str) : Prop := (cstr s).take 5 ≠ growTag

/-- **An entry is read as it was written**, with an entry behind it or at the end. -/
theorem readCfg_text {cfg : HackCfg} (h : cfg.Ok) {r : Str} (hr : NoGrow r) :
    readCfg (cfg.text ++ ';' :: r) = some (cfg, r) ∧ ∃ s, readCfg cfg.text = some (cfg, s) := by
  obtain ⟨memSize, codeAddr, codeOffs, stackOffs, lib, grow⟩ := cfg
  obtain ⟨hsize, hoffs, hlib, hgrow⟩ := h
  simp only at hsize hoffs hlib hgrow
  subst hoffs
  have hskip := setIbufStart_cfg ⟨memSize, codeOffs, codeOffs, stackOffs, lib, grow⟩
  have hess : ∀ s, scanEssentials
      (HackCfg.text ⟨memSize, codeOffs, codeOffs, stackOffs, lib, grow⟩ ++ s) =
      some (memSize, codeOffs, stackOffs) := by
    intro s
    simp only [HackCfg.text, List.append_assoc, List.cons_append, scanEssentials_text hsize]
  cases grow with
  | none =>
    constructor
    · rw [readCfg, hess, hskip, Option.elim_none, List.nil_append, hlib.setCodeLib_sep]
      simp only [bind, Option.bind]
      rw [if_neg hr]
      rfl
    · have hskip0 := hskip []
      have hess0 := hess []
      rw [List.append_nil] at hess0
      rw [List.append_nil, List.append_nil, Option.elim_none, List.append_nil] at hskip0
      -- The position stays at the library name, which has no separator.
      have hno : ¬ (cstr (lib.getD exeLib)).take 5 = growTag := by
        intro heq
        have hclean : Clean (lib.getD exeLib) := by
          cases lib with
          | none => decide
          | some name => exact (hlib name rfl).1
        rw [cstr_of_not_mem hclean.2.2] at heq
        have hmem : ';' ∈ (lib.getD exeLib).take 5 := by rw [heq]; decide
        exact hclean.1 (List.mem_of_mem_take hmem)
      refine ⟨lib.getD exeLib, ?_⟩
      rw [readCfg, hess0, hskip0, hlib.setCodeLib_end]
      simp only [bind, Option.bind]
      rw [if_neg hno]
      rfl
  | some grow =>
    obtain ⟨hmid, s, hend⟩ := readGrow_text (hgrow grow rfl) r
    have hsep : ∀ s, growTag ++ s = "grow".toList ++ ';' :: s := fun s => rfl
    have hgrowKw : Clean "grow".toList := by decide
    have hkw : ∀ s, (cstr ("grow".toList ++ ';' :: s)).take 5 = growTag := by
      intro s
      show (cstr ('g' :: 'r' :: 'o' :: 'w' :: ';' :: s)).take 5 = ['g', 'r', 'o', 'w', ';']
      simp [cstr, nul]
    constructor
    · rw [readCfg, hess, hskip, Option.elim_some, List.cons_append, hlib.setCodeLib_sep,
        List.append_assoc, hsep]
      simp only [bind, Option.bind]
      rw [if_pos (hkw _), setIbufStart_sep hgrowKw, hmid]
      rfl
    · have hskip0 := hskip []
      have hess0 := hess []
      rw [List.append_nil] at hess0
      rw [List.append_nil, List.append_nil, Option.elim_some] at hskip0
      refine ⟨s, ?_⟩
      rw [readCfg, hess0, hskip0, hlib.setCodeLib_sep, hsep]
      simp only [bind, Option.bind]
      rw [if_pos (hkw _), setIbufStart_sep hgrowKw, hend]
      rfl

/-! ## Reading all entries -/

/-- The entries as they are written: a separator before each. -/
def cfgsText (cfgs : List HackCfg) : Str := (cfgs.map fun cfg => ';' :: cfg.text).flatten

@[simp] theorem cfgsText_nil : cfgsText [] = [] := rfl

@[simp] theorem cfgsText_cons (cfg : HackCfg) (cfgs : List HackCfg) :
    cfgsText (cfg :: cfgs) = ';' :: (cfg.text ++ cfgsText cfgs) := rfl

theorem cfgsText_append (l l' : List HackCfg) : cfgsText (l ++ l') = cfgsText l ++ cfgsText l' := by
  simp [cfgsText]

/-- An entry starts with a digit. -/
theorem text_head (cfg : HackCfg) (r : Str) :
    ∃ d s, cfg.text ++ r = d :: s ∧ (digitVal 10 d).isSome := by
  cases hd : printDec cfg.memSize.toNat with
  | nil => exact absurd hd Nat.toDigits_ne_nil
  | cons d ds =>
    have hdig := digit_of_mem_toDigits (b := 10) (by decide) (by decide) cfg.memSize.toNat
      (c := d) (by rw [← printDec, hd]; simp)
    have htext : ∃ s, cfg.text ++ r = d :: s := by
      rw [HackCfg.text, hd]
      exact ⟨_, rfl⟩
    obtain ⟨s, hs⟩ := htext
    exact ⟨d, s, hs, hdig⟩

theorem noGrow_text (cfg : HackCfg) (r : Str) : NoGrow (cfg.text ++ r) := by
  obtain ⟨d, s, hs, hd⟩ := text_head cfg r
  have hg : d ≠ 'g' := digit_ne hd (by decide)
  have h0 : d ≠ nul := digit_ne hd (by decide)
  rw [NoGrow, hs, cstr, List.takeWhile_cons_of_pos (by simpa using h0), List.take_succ_cons]
  intro heq
  exact hg (List.cons.inj heq).1

/-- **All entries are read as they were written.** -/
theorem readCfgs_text {cfgs : List HackCfg} (h : ∀ cfg ∈ cfgs, cfg.Ok) :
    readCfgs cfgs.length (cfgsText cfgs).tail = some cfgs := by
  induction cfgs with
  | nil => rfl
  | cons cfg cfgs ih =>
    have hcfg := h cfg (by simp)
    have ih := ih fun c hc => h c (by simp [hc])
    cases cfgs with
    | nil =>
      have hno : NoGrow [] := by unfold NoGrow; decide
      obtain ⟨s, hs⟩ := (readCfg_text hcfg hno).2
      have htail : (cfgsText [cfg]).tail = cfg.text := by simp
      rw [htail]
      simp only [List.length_singleton, readCfgs, hs, bind, Option.bind]
      rfl
    | cons cfg' cfgs =>
      have htail : (cfgsText (cfg :: cfg' :: cfgs)).tail =
          cfg.text ++ ';' :: (cfgsText (cfg' :: cfgs)).tail := by simp
      have hread := (readCfg_text hcfg (noGrow_text cfg' (cfgsText cfgs))).1
      have htail' : (cfgsText (cfg' :: cfgs)).tail = cfg'.text ++ cfgsText cfgs := by simp
      rw [List.length_cons, readCfgs, htail, htail', hread]
      rw [htail'] at ih
      simp only [bind, Option.bind, ih]
      rfl

/-! ## What a class writes -/

theorem getD_hackLib (lib : Option LibStr) : (hackLib lib).getD exeLib = libText lib := by
  unfold hackLib
  split
  · rename_i h; rw [h]; rfl
  · rfl

theorem essentials_text (es : DynMemEssentials) : es.text = ';' :: es.hackCfg.text := by
  simp only [DynMemEssentials.text, DynMemEssentials.hackCfg, HackCfg.text, getD_hackLib,
    Option.elim_none, List.append_nil, List.append_assoc, List.cons_append]

theorem grow_text (grow : GrowEntry) : grow.text = ';' :: (growTag ++ grow.hackGrow.text) := by
  simp only [GrowEntry.text, GrowEntry.hackGrow, HackGrow.text, getD_hackLib,
    List.append_assoc, List.cons_append]

/-- The growth rule stands behind the last entry. -/
theorem cfgsText_attachGrow (grow : Option HackGrow) {cfgs : List HackCfg} (hne : cfgs ≠ [])
    (hno : ∀ cfg ∈ cfgs, cfg.grow = none) :
    cfgsText (attachGrow grow cfgs) =
      cfgsText cfgs ++ grow.elim [] fun grow => ';' :: (growTag ++ grow.text) := by
  induction cfgs with
  | nil => exact absurd rfl hne
  | cons cfg cfgs ih =>
    cases cfgs with
    | nil =>
      have hg := hno cfg (by simp)
      cases grow <;> simp [attachGrow, HackCfg.text, hg]
    | cons cfg' cfgs =>
      have ih := ih (by simp) fun c hc => hno c (by simp [hc])
      rw [attachGrow, cfgsText_cons, ih, cfgsText_cons cfg]
      simp

/-- **A class writes its entries.** -/
theorem dynmem_text (dynmem : DynMemEntry) : dynmem.text = cfgsText dynmem.hackCfgs := by
  have hmap : ∀ l : List DynMemEssentials,
      cfgsText (l.map (·.hackCfg)) = (l.map (·.text)).flatten := by
    intro l
    induction l with
    | nil => rfl
    | cons es l ih => rw [List.map_cons, cfgsText_cons, ih, List.map_cons, List.flatten_cons,
        essentials_text]; rfl
  have hno : ∀ cfg ∈ dynmem.essentials.map (·.hackCfg), cfg.grow = none := by
    intro cfg hcfg
    obtain ⟨es, -, rfl⟩ := List.mem_map.mp hcfg
    rfl
  have hne : dynmem.essentials.map (·.hackCfg) ≠ [] := by simp [DynMemEntry.essentials]
  rw [DynMemEntry.text, DynMemEntry.hackCfgs, cfgsText_attachGrow _ hne hno, hmap,
    DynMemEntry.essentials, List.map_cons, List.flatten_cons]
  cases dynmem.grow with
  | none => rfl
  | some grow =>
    show _ ++ grow.text = _ ++ (';' :: (growTag ++ grow.hackGrow.text))
    rw [grow_text]

/-! ## The classes of a config -/

/-- The classes along the entries, without those that repeat the last one. -/
def classRefs (old : Option Nat) : List CfgEntry → List Nat
  | [] => []
  | en :: cfg =>
    match en.dynmem with
    | none => classRefs old cfg
    | some d => if some d = old then classRefs old cfg else d :: classRefs (some d) cfg

/-- The classes in the order in which they are sent. -/
def CfgMem.classes (cfg : CfgMem) : List DynMemEntry :=
  (classRefs none cfg.entries).filterMap (cfg.dynmems[·]?)

/-- The library pointer that tells a class from others. -/
def DynMemEntry.key (dynmem : DynMemEntry) : Option Nat :=
  (dynmem.grow.elim dynmem.lib (·.lib)).map (·.id)

/-- What the config parser gives for the classes. -/
structure CfgMem.WellFormed (cfg : CfgMem) : Prop where
  /-- The entries of a class stand together, and the classes in their order. -/
  sorted : (cfg.entries.filterMap (·.dynmem)).Pairwise (· ≤ ·)
  valid : ∀ d, Refs cfg.entries d → d < cfg.dynmems.length
  /-- Each class has a library string of its own. -/
  key_ne : ∀ dynmem ∈ cfg.dynmems, dynmem.key ≠ none
  key_inj : ∀ (d d' : Nat) (dm dm' : DynMemEntry), cfg.dynmems[d]? = some dm →
    cfg.dynmems[d']? = some dm' → dm.key = dm'.key → d = d'
  /-- Sizes are read with `parse_u32_value`. -/
  sizes : ∀ dynmem ∈ cfg.dynmems, (∀ es ∈ dynmem.essentials, es.memSize.toNat < 2 ^ 32) ∧
    ∀ grow ∈ dynmem.grow, grow.sizeMin.toNat < 2 ^ 32 ∧ grow.sizeMax.toNat < 2 ^ 32

/-- The library names can stand in the message. -/
def CfgMem.CleanLibs (cfg : CfgMem) : Prop :=
  ∀ dynmem ∈ cfg.dynmems, (∀ es ∈ dynmem.essentials, Clean (libText es.lib)) ∧
    ∀ grow ∈ dynmem.grow, Clean (libText grow.lib)

instance (cfg : CfgMem) : Decidable cfg.CleanLibs :=
  inferInstanceAs (Decidable (∀ dynmem ∈ cfg.dynmems, (∀ es ∈ dynmem.essentials, _) ∧ _))

/-- The entries of all classes. -/
def CfgMem.hackCfgs (cfg : CfgMem) : List HackCfg := cfg.classes.flatMap (·.hackCfgs)

section Prepare

variable {cfg : CfgMem}

theorem hackCfgs_ok (h : cfg.WellFormed) (hc : cfg.CleanLibs) : ∀ c ∈ cfg.hackCfgs, c.Ok := by
  have hlib : ∀ lib : Option LibStr, Clean (libText lib) → LibOk (hackLib lib) := by
    intro lib hl name hname
    unfold hackLib at hname
    split at hname
    · cases hname
    · rename_i hne
      obtain rfl : libText lib = name := by simpa using hname
      exact ⟨hl, hne⟩
  have hattach : ∀ (g : Option HackGrow), (∀ grow ∈ g, grow.Ok) → ∀ l : List HackCfg,
      (∀ c ∈ l, c.Ok) → ∀ c ∈ attachGrow g l, c.Ok := by
    intro g hg l
    induction l with
    | nil => intro _ c hc; cases hc
    | cons x l ih =>
      intro hl
      cases l with
      | nil =>
        intro c hc
        obtain rfl := List.mem_singleton.mp hc
        have hx := hl x (by simp)
        exact ⟨hx.memSize, hx.codeOffs, hx.lib, hg⟩
      | cons y l =>
        intro c hc
        rcases List.mem_cons.mp hc with rfl | hc
        · exact hl c (by simp)
        · exact ih (fun c hc => hl c (by simp [hc])) c hc
  intro c hcm
  obtain ⟨dm, hdm, hcm⟩ := List.mem_flatMap.mp hcm
  obtain ⟨d, -, hd⟩ := List.mem_filterMap.mp hdm
  have hmem := List.mem_of_getElem? hd
  refine hattach _ ?_ _ ?_ c hcm
  · intro g hg
    obtain ⟨grow, hgrow, rfl⟩ := Option.map_eq_some_iff.mp hg
    obtain ⟨hmin, hmax⟩ := (h.sizes dm hmem).2 grow hgrow
    exact ⟨hmin, hmax, rfl, hlib _ ((hc dm hmem).2 grow hgrow)⟩
  · intro c hc'
    obtain ⟨es, hes, rfl⟩ := List.mem_map.mp hc'
    exact ⟨(h.sizes dm hmem).1 es hes, rfl, hlib _ ((hc dm hmem).1 es hes), by
      intro g hg; cases hg⟩

/-- The class that was taken last, as `prepare_dynmem` knows it. -/
structure PrepareState.Last (cfg : CfgMem) (st : PrepareState) (old : Option Nat) : Prop where
  lib : st.oldLib = (old.bind (cfg.dynmems[·]?)).bind (·.key)
  same : ∀ (d : Nat) (dm : DynMemEntry), old = some d → cfg.dynmems[d]? = some dm →
    st.isNew dm = false

/-- **`prepare_dynmem` takes a class exactly if it is not the last one.** -/
theorem isNew_iff (h : cfg.WellFormed) {st : PrepareState} {old : Option Nat}
    (hl : st.Last cfg old) {d : Nat} {dm : DynMemEntry} (hd : cfg.dynmems[d]? = some dm) :
    st.isNew dm = true ↔ some d ≠ old := by
  constructor
  · rintro hnew rfl
    rw [hl.same d dm rfl hd] at hnew
    cases hnew
  · intro hne
    have hkey : dm.key ≠ st.oldLib := by
      rw [hl.lib]
      cases old with
      | none => exact h.key_ne dm (List.mem_of_getElem? hd)
      | some d' =>
        cases hd' : cfg.dynmems[d']? with
        | none => simpa [hd'] using h.key_ne dm (List.mem_of_getElem? hd)
        | some dm' =>
          simp only [Option.bind_some, hd']
          intro hk
          exact hne (congrArg some (h.key_inj d d' dm dm' hd hd' hk))
    unfold DynMemEntry.key at hkey
    unfold PrepareState.isNew
    cases hg : dm.grow with
    | none =>
      rw [hg] at hkey
      have hkey' : dm.lib.map (·.id) ≠ st.oldLib := hkey
      simp [hkey']
    | some grow =>
      rw [hg] at hkey
      have hkey' : grow.lib.map (·.id) ≠ st.oldLib := hkey
      simp [hkey']

theorem last_add {st : PrepareState} {d : Nat} {dm : DynMemEntry}
    (hd : cfg.dynmems[d]? = some dm) : (st.add dm).Last cfg (some d) := by
  constructor
  · simp only [Option.bind_some, hd, PrepareState.add, DynMemEntry.key]
    cases dm.grow <;> rfl
  · rintro d' dm' hdd hd'
    cases hdd
    rw [hd] at hd'
    cases hd'
    unfold PrepareState.isNew PrepareState.add
    cases hg : dm.grow <;> simp

theorem add_obuf (st : PrepareState) (dm : DynMemEntry) :
    (st.add dm).obuf = st.obuf ++ cfgsText dm.hackCfgs ∧
      (st.add dm).numCfg = st.numCfg + dm.hackCfgs.length := by
  rw [hackCfgs_length, ← dynmem_text]
  unfold PrepareState.add
  cases dm.grow <;> exact ⟨rfl, by simp; omega⟩

/-- **What `prepare_dynmem` has written** at the end of its loop. -/
theorem prepare_fold (h : cfg.WellFormed) (es : List CfgEntry)
    (hv : ∀ d, Refs es d → d < cfg.dynmems.length) :
    ∀ (st : PrepareState) (old : Option Nat), st.Last cfg old →
      (es.foldl (PrepareState.step cfg) st).obuf = st.obuf ++
          cfgsText (((classRefs old es).filterMap (cfg.dynmems[·]?)).flatMap (·.hackCfgs)) ∧
        (es.foldl (PrepareState.step cfg) st).numCfg = st.numCfg +
          (((classRefs old es).filterMap (cfg.dynmems[·]?)).flatMap (·.hackCfgs)).length := by
  induction es with
  | nil => intro st old _; simp [classRefs]
  | cons en es ih =>
    intro st old hl
    have ih := ih fun d hd => hv d (List.mem_cons_of_mem _ hd)
    rw [List.foldl_cons]
    cases hen : en.dynmem with
    | none =>
      have hstep : PrepareState.step cfg st en = st := by
        simp [PrepareState.step, CfgMem.dynmemOf, hen]
      rw [hstep]
      simpa only [classRefs, hen] using ih st old hl
    | some d =>
      obtain ⟨dm, hd⟩ : ∃ dm, cfg.dynmems[d]? = some dm := by
        have hlt := hv d (by simp [Refs, hen])
        exact ⟨_, List.getElem?_eq_getElem hlt⟩
      have hstep : PrepareState.step cfg st en = if st.isNew dm then st.add dm else st := by
        simp [PrepareState.step, CfgMem.dynmemOf, hen, hd]
      rw [hstep]
      by_cases hold : some d = old
      · have hnew : st.isNew dm = false := hl.same d dm hold.symm hd
        simp only [classRefs, hen, hnew, if_pos hold]
        exact ih st old hl
      · have hnew := (isNew_iff h hl hd).mpr hold
        obtain ⟨hobuf, hnum⟩ := add_obuf st dm
        obtain ⟨ih₁, ih₂⟩ := ih (st.add dm) (some d) (last_add hd)
        simp only [classRefs, hen, hnew, if_neg hold, if_true, List.filterMap_cons, hd,
          List.flatMap_cons]
        rw [ih₁, ih₂, hobuf, hnum, cfgsText_append, List.length_append]
        exact ⟨by simp, by omega⟩

/-- The message that `prepare_dynmem` writes. -/
theorem prepareDynmem_eq (h : cfg.WellFormed) {useGbt : Bool} {text : Str}
    (hp : prepareDynmem useGbt cfg = some text) :
    cfg.hackCfgs ≠ [] ∧ text.length < pipeBuf ∧
      text = printDec cfg.hackCfgs.length ++ (if useGbt then ';' :: gbtCmd else []) ++
        cfgsText cfg.hackCfgs ++ ['\n', nul] := by
  have hfold : ∀ gbt : Str, (PrepareState.mk gbt 0 0 0 none).Last cfg none := by
    intro gbt
    exact ⟨rfl, fun d dm hd => by cases hd⟩
  have hobuf : ∀ gbt : Str, (cfg.entries.foldl (PrepareState.step cfg) ⟨gbt, 0, 0, 0, none⟩).obuf =
      gbt ++ cfgsText cfg.hackCfgs := fun gbt => (prepare_fold h _ h.valid _ none (hfold gbt)).1
  have hnum : ∀ gbt : Str, (cfg.entries.foldl (PrepareState.step cfg) ⟨gbt, 0, 0, 0, none⟩).numCfg =
      cfg.hackCfgs.length := by
    intro gbt
    rw [(prepare_fold h _ h.valid _ none (hfold gbt)).2, Nat.zero_add]
    rfl
  have hgbt : (if useGbt then ";gbt".toList else []) =
      if useGbt then ';' :: gbtCmd else ([] : Str) := rfl
  unfold prepareDynmem at hp
  simp only [hobuf, hnum, hgbt] at hp
  generalize (if useGbt then ';' :: gbtCmd else ([] : Str)) = gbt at hp ⊢
  split_ifs at hp with hfit hne
  cases hp
  have hnum : (printDec cfg.hackCfgs.length).length ≠ 0 := by
    simp [printDec]
  refine ⟨fun h0 => hne (by rw [h0]; rfl), ?_, by simp⟩
  simp only [List.length_append, List.length_cons, List.length_nil] at hfit ⊢
  omega

end Prepare

/-! ## The round trip -/

theorem not_mem_text {cfg : HackCfg} (h : cfg.Ok) {c : Char} (hc : c = '\n' ∨ c = nul) :
    c ∉ cfg.text := by
  have hclean : ∀ {s : Str}, Clean s → c ∉ s := by
    intro s hs
    rcases hc with rfl | rfl
    · exact hs.2.1
    · exact hs.2.2
  have hlib : ∀ {lib : Option Str}, LibOk lib → c ∉ lib.getD exeLib := by
    intro lib hl
    cases lib with
    | none => exact hclean (s := exeLib) (by decide)
    | some name => exact hclean (hl name rfl).1
  have hsep : c ≠ ';' := by rcases hc with rfl | rfl <;> decide
  have hgrow : ∀ grow ∈ cfg.grow, c ∉ grow.text := by
    intro grow hg
    have hop : c ≠ grow.type.opCh := by
      rcases hc with rfl | rfl <;> cases grow.type <;> decide
    simp only [HackGrow.text, List.mem_append, List.mem_cons, not_or]
    exact ⟨hclean (clean_printDec _), hsep, hclean (clean_printDec _), hsep, hop,
      hclean (clean_printDec _), hsep, hclean (clean_printHex _), hsep,
      hclean (clean_printHex _), hsep, hlib (h.grow grow hg).lib⟩
  have htag : c ∉ growTag := by rcases hc with rfl | rfl <;> decide
  simp only [HackCfg.text, List.mem_append, List.mem_cons, not_or]
  refine ⟨hclean (clean_printDec _), hsep, hclean (clean_printHex _), hsep,
    hclean (clean_printHex _), hsep, hlib h.lib, ?_⟩
  cases hg : cfg.grow with
  | none => simp
  | some grow =>
    simp only [Option.elim_some, List.mem_cons, List.mem_append, not_or]
    exact ⟨hsep, htag, hgrow grow hg⟩

theorem not_mem_cfgsText {cfgs : List HackCfg} (h : ∀ cfg ∈ cfgs, cfg.Ok) {c : Char}
    (hc : c = '\n' ∨ c = nul) : c ∉ cfgsText cfgs := by
  have hsep : c ≠ ';' := by rcases hc with rfl | rfl <;> decide
  induction cfgs with
  | nil => simp
  | cons cfg cfgs ih =>
    simp only [cfgsText_cons, List.mem_cons, List.mem_append, not_or]
    exact ⟨hsep, not_mem_text (h cfg (by simp)) hc, ih fun cfg hm => h cfg (by simp [hm])⟩

theorem length_le_cfgsText (cfgs : List HackCfg) : cfgs.length ≤ (cfgsText cfgs).length := by
  induction cfgs with
  | nil => rfl
  | cons cfg cfgs ih =>
    simp only [cfgsText_cons, List.length_cons, List.length_append]
    omega

theorem scanWord_gbt (r : Str) : scanWord (gbtCmd ++ r) = gbtCmd := by
  show scanWord ('g' :: 'b' :: 't' :: r) = ['g', 'b', 't']
  simp [scanWord, cstr, isSpace, nul]

theorem scanWord_text (cfg : HackCfg) (r : Str) : scanWord (cfg.text ++ r) ≠ gbtCmd := by
  obtain ⟨d, s, hs, hd⟩ := text_head cfg r
  have hsp : isSpace d = false := (digit_not_space hd).1
  have h0 : d ≠ nul := digit_ne hd (by decide)
  have hg : d ≠ 'g' := digit_ne hd (by decide)
  rw [hs, scanWord, List.dropWhile_cons_of_neg (by simp [hsp]), cstr,
    List.takeWhile_cons_of_pos (by simpa using h0),
    List.takeWhile_cons_of_pos (by simp [hsp]), List.take_succ_cons]
  intro heq
  exact hg (List.cons.inj heq).1

/-- **libmemhack reads the entries of all classes**, if the message was written at all. -/
theorem readConfig_prepareDynmem {cfg : CfgMem} (h : cfg.WellFormed) (hc : cfg.CleanLibs)
    {useGbt : Bool} {text : Str} (hp : prepareDynmem useGbt cfg = some text) :
    readConfig (readInput text) = some (useGbt, cfg.hackCfgs) := by
  obtain ⟨hne, hlen, htext⟩ := prepareDynmem_eq h hp
  have hread : readInput text = text := List.take_of_length_le (by
    unfold bufSize
    omega)
  rw [hread]
  subst htext
  have hok := hackCfgs_ok h hc
  generalize cfg.hackCfgs = cfgs at *
  obtain ⟨c, cfgs', rfl⟩ := List.exists_cons_of_ne_nil hne
  set n := (c :: cfgs').length with hn
  have hsmall : n < 2 ^ 32 := by
    have := length_le_cfgsText (c :: cfgs')
    simp only [List.length_append] at hlen
    have : n ≤ pipeBuf := by omega
    exact lt_of_le_of_lt this (by decide)
  -- Behind the number there is a separator in both cases.
  obtain ⟨r, hr⟩ : ∃ r, (if useGbt then ';' :: gbtCmd else []) ++ cfgsText (c :: cfgs') = ';' :: r ∧
      r = (if useGbt then gbtCmd ++ cfgsText (c :: cfgs') else c.text ++ cfgsText cfgs') := by
    cases useGbt with
    | true => exact ⟨_, rfl, rfl⟩
    | false => exact ⟨_, rfl, rfl⟩
  have hline : ((printDec n ++ (if useGbt then ';' :: gbtCmd else []) ++ cfgsText (c :: cfgs') ++
      ['\n', nul]).takeWhile (· ≠ '\n')) = printDec n ++ ';' :: r := by
    rw [List.append_assoc (printDec n), hr.1, List.takeWhile_append_of_pos]
    · simp
    · intro x hx
      rw [← hr.1] at hx
      simp only [List.mem_append] at hx
      have hgbt : '\n' ∉ (if useGbt then ';' :: gbtCmd else []) := by cases useGbt <;> decide
      refine decide_eq_true fun hxn => ?_
      subst hxn
      rcases hx with hx | hx | hx
      · exact (clean_printDec n).2.1 hx
      · exact hgbt hx
      · exact not_mem_cfgsText hok (Or.inl rfl) hx
  have hnum : scanULong 10 (printDec n ++ (if useGbt then ';' :: gbtCmd else []) ++
      cfgsText (c :: cfgs') ++ ['\n', nul]) = some (BitVec.ofNat 64 n, ';' :: r ++ ['\n', nul]) := by
    rw [List.append_assoc (printDec n), hr.1, List.append_assoc]
    exact scanULong_printDec n (by omega) (noDigit_cons.mpr (by decide)) (by simp)
  have hnum32 : (BitVec.ofNat 64 n).setWidth 32 = BitVec.ofNat 32 n := by
    apply BitVec.eq_of_toNat_eq
    simp
  have hnum0 : BitVec.ofNat 32 n ≠ 0 := by
    intro h0
    have := congrArg BitVec.toNat h0
    rw [BitVec.toNat_ofNat, Nat.mod_eq_of_lt hsmall] at this
    simp [hn] at this
  have hcfgs : readCfgs n (cfgsText (c :: cfgs')).tail = some (c :: cfgs') := readCfgs_text hok
  unfold readConfig
  simp only [hnum, hline, hnum32, bind, Option.bind, if_neg hnum0, pure,
    setIbufStart_sep (clean_printDec n), BitVec.toNat_ofNat, Nat.mod_eq_of_lt hsmall]
  cases useGbt with
  | true =>
    obtain rfl : r = gbtCmd ++ cfgsText (c :: cfgs') := hr.2
    have hskip : setIbufStart (gbtCmd ++ cfgsText (c :: cfgs')) = (cfgsText (c :: cfgs')).tail :=
      setIbufStart_sep (by decide) _
    rw [if_pos (by simpa using scanWord_gbt _), hskip, hcfgs]
    simp [scanWord_gbt]
  | false =>
    obtain rfl : r = (cfgsText (c :: cfgs')).tail := hr.2
    have hword : scanWord (cfgsText (c :: cfgs')).tail ≠ gbtCmd :=
      scanWord_text c (cfgsText cfgs')
    rw [if_neg (by simpa using hword), hcfgs]
    exact congrArg some (Prod.ext (decide_eq_false hword) rfl)

end UgTrain
