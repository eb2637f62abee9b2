import UgTrain.ConfigRoundTrip

/-!
# Late PIC handling

A library that the game loads later. `postprocessDlopen` (libmemhack) looks for items of the config
in this library and asks ugtrain for its load address, `getLibLoadAddr` (ugtrain) updates its own
code addresses and answers.

* libmemhack compares the names by `strstr`, ugtrain by `==`.
* `get` asks for the load address. It comes with a state of type `σ`, so that the same loop runs
  with an answer at once and with two processes and their FIFOs.
-/

namespace UgTrain

open CLib

/-! ## ugtrain -/

/-- `find_lib_region`: start and end of the library. -/
def findLibBounds (rlist : List Region) (lib : Str) : Ptr × Ptr :=
  match rlist.find? fun it => it.exec && it.type ≠ .exe && basename it.filePath = lib with
  | some it => (it.start, it.start + it.size)
  | none => (0, ptrMax)

/-- `send_lib_bounds` -/
def sendLibBounds (bounds : Ptr × Ptr) : Str :=
  printHex bounds.1 ++ ';' :: printHex bounds.2 ++ ['\n']

def GrowEntry.setLoad (libName : Str) (libStart : Ptr) (grow : GrowEntry) : GrowEntry :=
  if grow.lib.any (·.name = libName) then { grow with codeAddr := grow.codeOffs + libStart }
  else grow

/-- The class and its growth rule, if they are in the library. -/
def DynMemEntry.setLoad (libName : Str) (libStart : Ptr) (dynmem : DynMemEntry) : DynMemEntry :=
  { dynmem with
    codeAddr := if dynmem.lib.any (·.name = libName) then dynmem.codeOffs + libStart
      else dynmem.codeAddr
    grow := dynmem.grow.map (·.setLoad libName libStart) }

/-- The local variable of `get_lib_load_addr` and the classes. -/
structure LoadState where
  dynmems : List DynMemEntry
  oldDynmem : Option Nat

/-- One round of the loop over the entries. -/
def LoadState.step (libName : Str) (libStart : Ptr) (st : LoadState) (en : CfgEntry) : LoadState :=
  match en.dynmem.bind fun d => (st.dynmems[d]?).map (d, ·) with
  | none => st
  | some (d, dynmem) =>
    if some d = st.oldDynmem then st
    else ⟨st.dynmems.set d (dynmem.setLoad libName libStart), some d⟩

/-- `get_lib_load_addr` of ugtrain: the classes, and the answer if the library was found. -/
def getLibLoadAddr (rlist : List Region) (libName : Str) (cfg : CfgMem) : CfgMem × Option Str :=
  let bounds := findLibBounds rlist libName
  if bounds.1 = 0 then (cfg, none)
  else
    let st := cfg.entries.foldl (LoadState.step libName bounds.1) ⟨cfg.dynmems, none⟩
    ({ cfg with dynmems := st.dynmems }, some (sendLibBounds bounds))

/-! ## libmemhack -/

/-- `sscanf(ibuf, "0x%lx;0x%lx", ..)`, if it scans both numbers. -/
def scanLibBounds (ibuf : Str) : Option (Ptr × Ptr) := do
  let (libStart, s) ← scanPtr ibuf
  let s ← scanLit [';'] s
  let (libEnd, _) ← scanPtr s
  return (libStart, libEnd)

/-- `lib && strstr(lib, lib_name)` -/
def inLib (libName : Str) (lib : Option Str) : Bool := lib.any fun lib => libName <:+: lib

section Dlopen

variable {σ : Type} (get : σ → Option Ptr × σ) (libName : Str)

/-- One item: its code address and the load address afterwards, unless the loop is left. -/
def lateAddr (lib : Option Str) (codeOffs codeAddr libLoad : Ptr) (s : σ) :
    Option (Ptr × Ptr) × σ :=
  if ¬ inLib libName lib then (some (codeAddr, libLoad), s)
  else if libLoad ≠ 0 then (some (codeOffs + libLoad, libLoad), s)
  else
    match get s with
    | (none, s) => (none, s)
    | (some load, s) => (some (if load ≠ 0 then codeOffs + load else codeAddr, load), s)

/-- The loop of `postprocess_dlopen`. -/
def dlopenLoop : List HackCfg → Ptr → σ → List HackCfg × σ
  | [], _, s => ([], s)
  | cfg :: config, libLoad, s =>
    match lateAddr get libName cfg.lib cfg.codeOffs cfg.codeAddr libLoad s with
    | (none, s) => (cfg :: config, s)
    | (some (codeAddr, libLoad), s) =>
      let cfg := { cfg with codeAddr := codeAddr }
      match cfg.grow with
      | none =>
        let (config, s) := dlopenLoop config libLoad s
        (cfg :: config, s)
      | some grow =>
        match lateAddr get libName grow.lib grow.codeOffs grow.codeAddr libLoad s with
        | (none, s) => (cfg :: config, s)
        | (some (codeAddr, libLoad), s) =>
          let (config, s) := dlopenLoop config libLoad s
          ({ cfg with grow := some { grow with codeAddr := codeAddr } } :: config, s)

end Dlopen

/-- `postprocess_dlopen`; `get` asks for the load address of a library. -/
def postprocessDlopen {σ : Type} (get : Str → σ → Option Ptr × σ) (libPath : Str)
    (config : List HackCfg) (s : σ) : List HackCfg × σ :=
  let libName := basename libPath
  if libName = [] then (config, s) else dlopenLoop (get libName) libName config 0 s

/-! ## What the loop does -/

section Loop

variable {σ : Type} {get : σ → Option Ptr × σ} {libName : Str} {s : σ} {load : Ptr}

/-- The entry asks for the library: itself or its growth rule is in it. -/
def HackCfg.asks (libName : Str) (cfg : HackCfg) : Bool :=
  inLib libName cfg.lib || cfg.grow.any fun grow => inLib libName grow.lib

def HackGrow.setLoad (libName : Str) (load : Ptr) (grow : HackGrow) : HackGrow :=
  if inLib libName grow.lib then { grow with codeAddr := grow.codeOffs + load } else grow

/-- The items of the entry that are in the library. -/
def HackCfg.setLoad (libName : Str) (load : Ptr) (cfg : HackCfg) : HackCfg :=
  { cfg with
    codeAddr := if inLib libName cfg.lib then cfg.codeOffs + load else cfg.codeAddr
    grow := cfg.grow.map (·.setLoad libName load) }

theorem lateAddr_load (hne : load ≠ 0) (lib : Option Str) (codeOffs codeAddr : Ptr) :
    lateAddr get libName lib codeOffs codeAddr load s =
      (some (if inLib libName lib then codeOffs + load else codeAddr, load), s) := by
  have hne' : load ≠ 0#64 := hne
  unfold lateAddr
  cases inLib libName lib <;> simp [hne']

theorem lateAddr_zero (hne : ∀ load, (get s).1 = some load → load ≠ 0) (lib : Option Str)
    (codeOffs codeAddr : Ptr) : lateAddr get libName lib codeOffs codeAddr 0 s =
      if inLib libName lib then
        ((get s).1.map fun load => (codeOffs + load, load), (get s).2)
      else (some (codeAddr, 0), s) := by
  unfold lateAddr
  cases inLib libName lib with
  | false => simp
  | true =>
    cases hget : get s with
    | mk o s' =>
      cases o with
      | none => simp
      | some load =>
        have hne' : load ≠ 0#64 := hne load (by rw [hget])
        simp [hne']

/-- Without an item in the library nothing is asked. -/
theorem dlopenLoop_still {config : List HackCfg} (h : config.any (·.asks libName) = false) :
    dlopenLoop get libName config 0 s = (config, s) := by
  induction config with
  | nil => rfl
  | cons cfg config ih =>
    rw [List.any_cons, Bool.or_eq_false_iff] at h
    obtain ⟨hcfg, hrest⟩ := h
    obtain ⟨memSize, codeAddr, codeOffs, stackOffs, lib, grow⟩ := cfg
    obtain ⟨hlib, hgrow⟩ := Bool.or_eq_false_iff.mp hcfg
    have hlib : inLib libName lib = false := hlib
    have ih : dlopenLoop get libName config 0#64 s = (config, s) := ih hrest
    cases grow with
    | none => simp [dlopenLoop, lateAddr, hlib, ih]
    | some grow =>
      have hgrow : inLib libName grow.lib = false := hgrow
      simp [dlopenLoop, lateAddr, hlib, hgrow, ih]

/-- Once the load address is known, nothing is asked any more. -/
theorem dlopenLoop_load (hne : load ≠ 0) (config : List HackCfg) :
    dlopenLoop get libName config load s = (config.map (·.setLoad libName load), s) := by
  induction config with
  | nil => rfl
  | cons cfg config ih =>
    rw [dlopenLoop, lateAddr_load hne]
    cases hg : cfg.grow with
    | none => simp [hg, ih, HackCfg.setLoad]
    | some grow =>
      simp only [hg, lateAddr_load hne, ih, List.map_cons, HackCfg.setLoad, Option.map_some,
        HackGrow.setLoad]
      cases inLib libName grow.lib <;> simp

/-- **The loop** asks at most once, if an answer is never 0. -/
theorem dlopenLoop_eq (hne : ∀ load, (get s).1 = some load → load ≠ 0) (config : List HackCfg) :
    dlopenLoop get libName config 0 s =
      if config.any (·.asks libName) then
        ((get s).1.elim config fun load => config.map (·.setLoad libName load), (get s).2)
      else (config, s) := by
  induction config with
  | nil => rfl
  | cons cfg config ih =>
    obtain ⟨memSize, codeAddr, codeOffs, stackOffs, lib, grow⟩ := cfg
    rw [dlopenLoop, lateAddr_zero hne, List.any_cons]
    cases hin : inLib libName lib with
    | true =>
      have hasks : HackCfg.asks libName ⟨memSize, codeAddr, codeOffs, stackOffs, lib, grow⟩ = true := by
        simp [HackCfg.asks, hin]
      rw [hasks, Bool.true_or, if_pos rfl, if_pos rfl]
      cases hget : (get s).1 with
      | none => rfl
      | some load =>
        have hload := hne load hget
        cases grow with
        | none => simp [dlopenLoop_load hload, HackCfg.setLoad, hin]
        | some grow =>
          simp only [Option.map_some, lateAddr_load hload, dlopenLoop_load hload,
            Option.elim_some, List.map_cons, HackCfg.setLoad, hin, HackGrow.setLoad]
          cases inLib libName grow.lib <;> simp
    | false =>
      simp only [Bool.false_eq_true, if_false]
      cases grow with
      | none =>
        have hasks : HackCfg.asks libName
            ⟨memSize, codeAddr, codeOffs, stackOffs, lib, none⟩ = false := by
          simp [HackCfg.asks, hin]
        simp only [ih, hasks, Bool.false_or]
        split
        · cases (get s).1 <;> simp [HackCfg.setLoad, hin]
        · rfl
      | some grow =>
        simp only [lateAddr_zero hne]
        cases hin' : inLib libName grow.lib with
        | true =>
          have hasks : HackCfg.asks libName
              ⟨memSize, codeAddr, codeOffs, stackOffs, lib, some grow⟩ = true := by
            simp [HackCfg.asks, hin']
          rw [hasks, Bool.true_or, if_pos rfl, if_pos rfl]
          cases hget : (get s).1 with
          | none => rfl
          | some load =>
            simp [dlopenLoop_load (hne load hget), HackCfg.setLoad, HackGrow.setLoad, hin, hin']
        | false =>
          have hasks : HackCfg.asks libName
              ⟨memSize, codeAddr, codeOffs, stackOffs, lib, some grow⟩ = false := by
            simp [HackCfg.asks, hin, hin']
          simp only [Bool.false_eq_true, if_false, ih, hasks, Bool.false_or]
          split
          · cases (get s).1 <;> simp [HackCfg.setLoad, HackGrow.setLoad, hin, hin']
          · rfl

end Loop

end UgTrain
