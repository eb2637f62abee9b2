import UgTrain.Process

/-!
# Keys and output (`control.cpp`, `valoutput.cpp`)

A key toggles its entries, or moves the print index of all classes. `outputMemValues` shows the
values of one object of each class: it copies them from the vectors of an entry to its single fields
first.

* `Trainer` is what the main loop works on. `prIdx` is `pr_idx` of each class, `events` what the
  last cycle left.
* The texts that are printed are left out. Printing may fail behind any value, which ends the
  output: `printed` activated values are dealt with.
-/

namespace UgTrain

open CLib

/-- Where the main loop stands. -/
inductive Phase where
  | input
  | fifo
  | free
  | attach
  | fifoAgain
  | process
  | detach
  | late
  | freeKicked
  | output
  | mallocs
  | stopped
  deriving DecidableEq, Repr, Inhabited

structure Trainer where
  opt : Options
  cfgAct : List Nat
  cfgpMap : Nat → List Nat
  prIdx : Nat → U32
  heapChecks : Bool
  pureStatmem : Bool
  mq : MQueue
  phase : Phase
  events : List ProcEvent

/-! ## Keys -/

/-- The loop of `change_mvec_pridx`: each class once where its entries stand together. -/
def changePrIdx (f : U32 → U32) (prIdx : Nat → U32) (old : Option Nat) :
    List CfgEntry → Nat → U32
  | [] => prIdx
  | en :: cfg =>
    match en.dynmem with
    | none => changePrIdx f prIdx old cfg
    | some d =>
      if some d = old then changePrIdx f prIdx old cfg
      else changePrIdx f (Function.update prIdx d (f (prIdx d))) (some d) cfg

/-- Takes an entry out of a list, or appends it. -/
def toggleList (e : Nat) (cfgAct : List Nat) : List Nat :=
  if e ∈ cfgAct then cfgAct.erase e else cfgAct ++ [e]

/-- One round of `toggle_cfg`. -/
def Trainer.toggle (s : Trainer) (e : Nat) : Trainer :=
  match s.opt.entries[e]? with
  | none => s
  | some en =>
    match en.ptrmem with
    | some p =>
      { s with opt := { s.opt with
        ptrmems := s.opt.ptrmems.modify p fun pm => { pm with cfgAct := toggleList e pm.cfgAct } } }
    | none =>
      -- the list of the class follows the list of all entries
      let f (l : List Nat) : List Nat := if e ∈ s.cfgAct then l.erase e else l ++ [e]
      { s with
        cfgAct := toggleList e s.cfgAct
        opt := { s.opt with
          dynmems := en.dynmem.elim s.opt.dynmems fun d =>
            s.opt.dynmems.modify d fun dm => { dm with cfgAct := f dm.cfgAct } } }

/-- `handle_input_char`. -/
def Trainer.handleInputChar (s : Trainer) (ch : Nat) : Trainer :=
  if ch = '+'.toNat then
    { s with prIdx := changePrIdx (· + 1) s.prIdx none s.opt.entries }
  else if ch = '-'.toNat then
    { s with prIdx := changePrIdx (fun i => if 0 < i then i - 1 else i) s.prIdx none s.opt.entries }
  else if ch = '>'.toNat then s
  else (s.cfgpMap ch).foldl Trainer.toggle s

/-! ## Output -/

/-- The values of the object `i` go to the single fields. -/
def EntryVals.display (i : Nat) (v : EntryVals) : EntryVals :=
  { v with
    oldVal := v.vOldval.getD i v.oldVal
    value := v.vValue.getD i v.value
    cstr := v.vCstr.getD i v.cstr }

def Trainer.display (s : Trainer) (e i : Nat) : Except Fault Trainer :=
  match s.opt.entries[e]? with
  | none => .error .nullPointer
  | some en =>
    if i < en.vals.vOldval.length ∧ i < en.vals.vValue.length ∧ i < en.vals.vCstr.length then
      .ok { s with opt := { s.opt with
        entries := s.opt.entries.modify e fun en => { en with vals := en.vals.display i } } }
    else .error .outOfBounds

/-- `output_ptrmem_values`. -/
def Trainer.outputPtrmemValues (s : Trainer) (p : Nat) : Except Fault Trainer :=
  match s.opt.ptrmems[p]? with
  | none => .error .nullPointer
  | some pm =>
    let dynmem := pm.dynmem.bind fun d => (s.opt.dynmems[d]?).map fun _ => d
    let prIdx := (dynmem.elim 0 s.prIdx).toNat
    match pm.vOffs[prIdx]? with
    | none => .error .outOfBounds
    | some memOffs =>
      if memOffs = 0 then .ok s
      else
        match pm.vState[prIdx]? with
        | none => .error .outOfBounds
        | some .init => .ok s
        | some _ =>
          if dynmem.isSome then pm.cfgAct.foldlM (fun s e => s.display e prIdx) s else .ok s

/-- One round of `output_mem_values`. -/
def Trainer.outputMemValue (s : Trainer) (e : Nat) : Except Fault Trainer := do
  match s.opt.entries[e]? with
  | none => throw .nullPointer
  | some en =>
    let target (s : Trainer) : Except Fault Trainer :=
      match en.ptrtgt with
      | none => .ok s
      | some p => s.outputPtrmemValues p
    match en.dynmem.bind fun d => (s.opt.dynmems[d]?).map (d, ·) with
    | some (d, dm) =>
      if dm.vMaddr = [] then return s
      let i := if dm.vMaddr.length ≤ (s.prIdx d).toNat then BitVec.ofNat 32 (dm.vMaddr.length - 1)
        else s.prIdx d
      let s ← { s with prIdx := Function.update s.prIdx d i }.display e i.toNat
      target s
    | none =>
      if en.type.onStack then return s
      match en.type.lib.bind fun l => (s.opt.libs[l]?).map (l, ·) with
      | none => target s
      | some (l, lib) =>
        if lib.start = 0 then return s
        -- library for late PIC handling just loaded?
        if lib.skipVal then
          return { s with opt := { s.opt with libs := s.opt.libs.set l { lib with skipVal := false } } }
        target s

/-- `output_mem_values`. -/
def Trainer.outputMemValues (s : Trainer) (printed : Nat) : Except Fault Trainer :=
  (s.cfgAct.take printed).foldlM Trainer.outputMemValue s

end UgTrain
