import UgTrain.Cycle

/-!
# Entries and the sizes of objects (`process_dynmem_cfg_act`)

Before an entry of a class is processed for an object, its end is compared with the size of the
object. The end is a 64 bit sum, and the addresses that the parser accepts are not bounded: an address
relative to the entry before it (`prev-N`) may be near the end of the address space.
-/

namespace UgTrain

open CLib

/-- `PARSE_REL_ADDR`: an offset of 0 is refused. -/
def parseRelAddr (base : Ptr) (subtract : Bool) (relAddr : Ptr) : Option Ptr :=
  if relAddr = 0 then none else some (if subtract then base - relAddr else base + relAddr)

/-- The check for out of bounds access lets the entry through. -/
def CfgEntry.Passes (en : CfgEntry) (memSize : Ptr) : Prop :=
  ¬ en.addr + BitVec.ofNat 64 en.type.bytes > memSize

/-- The bytes that are read and those that are stored are in the object. -/
def CfgEntry.Inside (en : CfgEntry) (memSize : Ptr) : Prop :=
  en.addr.toNat + max en.type.bytes en.type.stored ≤ memSize.toNat

/-- The end of the entry wraps behind the end of the object. Or it is in the address space, and what
is stored is not more than what is compared, or is in the object as well. -/
def CfgEntry.EndKept (en : CfgEntry) (memSize : Ptr) : Prop :=
  memSize.toNat < (en.addr.toNat + en.type.bytes) % 2 ^ 64 ∨
    en.addr.toNat + en.type.bytes < 2 ^ 64 ∧
      (en.type.stored ≤ en.type.bytes ∨ en.addr.toNat + en.type.stored ≤ memSize.toNat)

/-- An activated value of a class, and an object of the class that has not been freed. -/
structure CfgMem.ObjEntry (cfg : CfgMem) (d k e : Nat) (en : CfgEntry) (memSize : Ptr) : Prop where
  entry : cfg.entries[e]? = some en
  value : en.type.isCstr = false
  object : ∃ dm memOffs, cfg.dynmems[d]? = some dm ∧ e ∈ dm.cfgAct ∧
    dm.vMaddr[k]? = some memOffs ∧ memOffs ≠ 0 ∧ dm.vMsize[k]? = some memSize

/-! ## The check -/

section Check

variable {chunk d k e : Nat} {C : ProcEvent → Prop} {en : CfgEntry} {memSize : Ptr}
  {s s' : ProcState}

theorem passes_iff : en.Passes memSize ↔
    (en.addr.toNat + en.type.bytes) % 2 ^ 64 ≤ memSize.toNat := by
  unfold CfgEntry.Passes
  rw [gt_iff_lt, BitVec.lt_def, not_lt, BitVec.toNat_add, BitVec.toNat_ofNat, Nat.add_mod_mod]

/-- The check keeps an entry in an object exactly if the end does not wrap into the object. -/
theorem inside_of_passes_iff : (en.Passes memSize → en.Inside memSize) ↔ en.EndKept memSize := by
  have hsize := memSize.isLt
  rw [passes_iff]
  unfold CfgEntry.Inside CfgEntry.EndKept
  omega

/-- What the check does not let through is left alone. -/
theorem processObjEntry_passes (hm : ∀ dm, s.opt.dynmems[d]? = some dm → e ∈ dm.cfgAct)
    (h : processObjEntry chunk d k s e = .ok s') (hne : s' ≠ s) :
    ∃ en memSize, s.opt.entries[e]? = some en ∧ en.Passes memSize ∧
      (en.type.isCstr = false → s.opt.ObjEntry d k e en memSize) := by
  unfold processObjEntry at h
  split at h
  · rename_i dm en hd he
    split at h
    · cases h
    · rename_i memOffs hoffs
      split at h
      · cases h
        exact absurd rfl hne
      · rename_i h0
        split at h
        · cases h
        · rename_i memSize hsize
          split at h
          · cases h
            exact absurd rfl hne
          · rename_i hpass
            exact ⟨en, memSize, he, hpass,
              fun hv => ⟨he, hv, dm, memOffs, hd, hm dm hd, hoffs, h0, hsize⟩⟩
  · cases h

/-- A cycle adds no objects and keeps the entries. -/
theorem objEntry_of_steps (h : Steps C s s') {en' : CfgEntry}
    (ho : s'.opt.ObjEntry d k e en' memSize) :
    ∃ en, s.opt.ObjEntry d k e en memSize ∧ en.addr = en'.addr ∧ en.type = en'.type := by
  obtain ⟨dm', memOffs, hd', hm, hoffs, h0, hsize⟩ := ho.object
  obtain ⟨en, he, hs⟩ := h.same.symm.entry ho.entry
  obtain ⟨dm, hd, hds⟩ := h.same.symm.dynmem hd'
  obtain ⟨hact, hsizes, -⟩ := DynMemEntry.shape_fields hds
  obtain ⟨dm₁, hd₁, hk⟩ := Pointwise.getElem? h.keeps.dynmems hd'
  cases hd.symm.trans hd₁
  obtain ⟨a, ha, heq⟩ := Pointwise.getElem? hk.vMaddr hoffs
  refine ⟨en, ⟨he, ?_, dm, a, hd, hact ▸ hm, ha, ?_, ?_⟩, congrArg (·.1.addr) hs, congrArg (·.1.type) hs⟩
  · rw [(CfgEntry.shape_fields hs).1]
    exact ho.value
  · rcases heq with rfl | rfl
    · exact h0
    · exact absurd rfl h0
  · exact hsizes ▸ hsize

end Check

/-! ## Cycles -/

section Cycles

variable {chunk : Nat}

/-- **Bounds of objects.** In a cycle from any state, a value of a class is processed only where the
check lets it through. Then the bytes that are read and stored are in the object, exactly if for all
activated values of
classes and all objects the end of the value does not wrap into the object. -/
theorem cycle_inside_iff (s : Trainer) :
    (∀ i ps, Steps (Allowed s.cfgAct s.opt) (s.cycle i) ps →
      ∀ d k e ps', (∀ dm, ps.opt.dynmems[d]? = some dm → e ∈ dm.cfgAct) →
        processObjEntry chunk d k ps e = .ok ps' → ps' ≠ ps →
          ∃ en memSize, ps.opt.entries[e]? = some en ∧ en.Passes memSize ∧
            (en.type.isCstr = false → ps.opt.ObjEntry d k e en memSize)) ∧
    ((∀ i ps, Steps (Allowed s.cfgAct s.opt) (s.cycle i) ps →
      ∀ d k e en memSize, ps.opt.ObjEntry d k e en memSize → en.Passes memSize →
        en.Inside memSize) ↔
      ∀ d k e en memSize, s.opt.ObjEntry d k e en memSize → en.EndKept memSize) := by
  refine ⟨fun i ps _ d k e ps' hm h hne => processObjEntry_passes hm h hne, fun h => ?_,
    fun h i ps hps d k e en memSize ho => ?_⟩
  · intro d k e en memSize ho
    exact inside_of_passes_iff.mp (h (.idle fun _ => 0) _ .refl d k e en memSize ho)
  · obtain ⟨en₀, ho₀, haddr, htype⟩ := objEntry_of_steps hps ho
    have hkept := h d k e en₀ memSize ho₀
    rw [CfgEntry.EndKept, haddr, htype] at hkept
    exact inside_of_passes_iff.mpr hkept

end Cycles

/-- A value of eight bytes in a class, at an address relative to that of the value before. -/
def CfgEntry.objPrev (prevAddr : Ptr) (subtract : Bool) (relAddr : Ptr) : CfgEntry :=
  { (default : CfgEntry) with
    addr := (parseRelAddr prevAddr subtract relAddr).getD 0
    type := { (default : VType) with size := 64 }
    dynval := .watch
    dynmem := some 0 }

/-- A static value, and one in a class that is four bytes before its objects. -/
def CfgMem.prevValue : CfgMem where
  entries := [{ (default : CfgEntry) with
    addr := 0x10
    type := { (default : VType) with size := 32 } }, .objPrev 0x10 true 0x14]
  dynmems := [{ (default : DynMemEntry) with memSize := 8, codeAddr := 0x400, cfgAct := [1] }]
  ptrmems := []

/-- The main loop at its start, with the caches of the config. -/
def Trainer.startCaches (chunk : Nat) (cfg : CfgMem) (cfgAct : List Nat) : Trainer :=
  { start cfg cfgAct with opt := buildCaches chunk (start cfg cfgAct).opt }

/-- The value at `prev-20` is read for an object of eight bytes, from four bytes before it on. -/
theorem run_not_inside : CfgMem.prevValue.Loaded [1] ∧ ∃ s s' en,
    Run.run (Trainer.step 8) (.startCaches 8 .prevValue [1]) (LoopInput.oneMsg (fun _ => 0)
      (.malloc (HackMsg.allocMsg 0x20 8 0x400) [] 0) 14) = .ok s ∧
    s.step 8 (.idle fun _ => 0) = .ok s' ∧ s'.events = [.read 1 (some 0) 0] ∧
    s.opt.ObjEntry 0 0 1 en 8 ∧ en.Passes 8 ∧ ¬ en.Inside 8 := by
  refine ⟨by decide, ?_⟩
  obtain ⟨s, hs, hview⟩ := Run.exists_ok_of_map (f := fun s : Trainer =>
      decide (s.opt.entries[1]?.map (fun en : CfgEntry => (en.addr, en.type.bytes, en.type.isCstr)) =
        some (0xfffffffffffffffc, 8, false)) &&
      (decide (s.opt.dynmems.map (fun dm : DynMemEntry => (dm.cfgAct, dm.vMaddr, dm.vMsize)) =
        [([1], [0x20], [8])]) &&
      decide ((s.step 8 (.idle fun _ => 0)).toOption.map (·.events) =
        some [.read 1 (some 0) 0]))) (b := true)
    (show (Run.run (Trainer.step 8) (.startCaches 8 .prevValue [1]) (LoopInput.oneMsg (fun _ => 0)
      (.malloc (HackMsg.allocMsg 0x20 8 0x400) [] 0) 14)).map _ = _ by decide +kernel)
  simp only [Bool.and_eq_true, decide_eq_true_eq, Option.map_eq_some_iff, Prod.mk.injEq] at hview
  obtain ⟨⟨en, he, haddr, hsize, hcstr⟩, hdms, s', hs', hev⟩ := hview
  obtain ⟨dm, hdm, hfields⟩ := List.map_eq_singleton_iff.mp hdms
  simp only [Prod.mk.injEq] at hfields
  obtain ⟨hact, hmaddr, hmsize⟩ := hfields
  refine ⟨s, s', en, hs, ?_, hev, ⟨he, hcstr, dm, 0x20, ?_⟩, ?_, ?_⟩
  · cases hstep : s.step 8 (.idle fun _ => 0) with
    | error f =>
      rw [hstep] at hs'
      cases hs'
    | ok s₁ =>
      rw [hstep] at hs'
      cases hs'
      rfl
  · simp [hdm, hact, hmaddr, hmsize]
  · rw [passes_iff, haddr, hsize]
    decide
  · have hle : 8 ≤ max en.type.bytes en.type.stored := hsize ▸ Nat.le_max_left _ _
    have hend : ¬ (0xfffffffffffffffc : Ptr).toNat + 8 ≤ (8 : Ptr).toNat := by decide
    rw [CfgEntry.Inside, haddr]
    exact fun hin => hend ((Nat.add_le_add_left hle _).trans hin)

end UgTrain
