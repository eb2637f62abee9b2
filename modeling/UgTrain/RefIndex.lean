import UgTrain.Cycle
import UgTrain.LoadedCfg
import UgTrain.ValSet

/-!
# Indices of references (`handle_cfg_ref`)

A reference to an entry with objects takes the element of the object that the class of that entry is
at: `obj_idx`, which is set where the class is processed and nowhere else.

* `Visit.Looks R`: every look-up of a reference in a call satisfies `R`. It follows the functions of
  the processing down to the two places where a reference is used, the lines of checks and the wish
  value.
* `Options.Stays`: what stays between any two states of a cycle. A class that is at one of its objects
  stays at one. `ProcState.Goes`: the same, and the flags follow the events.
* `ProcState.RefCurrent`: when the index of a class is known to be one of its objects at a look-up.
-/

namespace UgTrain

open CLib

/-! ## Look-ups -/

section Looks

variable (chunk : Nat) (R : ProcState → Nat → Prop)

/-- The lines of checks: one that is available, behind lines that pass. -/
def ChecksLook (dynmem : Option Nat) (memOffs : Ptr) (chks : List CheckEntry) (s : ProcState) :
    Prop :=
  ∀ pre chk post s' cfgRef, chks = pre ++ chk :: post →
    processChecks chunk dynmem memOffs pre s.junk s = .ok (true, s') →
    chk.type.isLate s'.opt.libs = false → chk.cfgRef = some cfgRef → R s' cfgRef

/-- `change_memory`: the wish value, then the lines. -/
def ChangeLooks (e : Nat) (en : CfgEntry) (memOffs : Ptr) (slot : Option Nat) (s : ProcState) :
    Prop :=
  ∀ en₀ old value cstr t, s.opt.entries[e]? = some en₀ → en₀.vals.old? slot = some old →
    en₀.vals.wish? slot = some value → en₀.vals.cstr? slot = some cstr → en.type.num = some t →
    let s₁ := ((s.modifyVals e (·.setFlag false)).emit (.read e slot s.buf)).modifyVals e
      (·.setOld slot (t.store old s.buf))
    (en.dynval = .addr → ∀ cfgRef, en.cfgRef = some cfgRef → R s₁ cfgRef) ∧
    (en.dynval ≠ .watch → ∀ value' s₂,
      handleDynval t e en (t.store old s.buf) value cstr memOffs slot s₁ = .ok (value', s₂) →
      ChecksLook chunk R en.dynmem memOffs (en.checks.getD [])
        (s₂.modifyVals e (·.setWish slot value')))

/-- An entry of a pointer section. -/
def TargetLooks (memIdx : Nat) (slot : Option Nat) (s : ProcState) (e : Nat) : Prop :=
  ∀ en p pm memOffs buf s₁, s.opt.entries[e]? = some en → en.ptrmem = some p →
    s.opt.ptrmems[p]? = some pm → pm.vOffs[memIdx]? = some memOffs →
    fillCacheAndBuf chunk en.type en.cache en.cacheData memOffs s.buf s = .ok (some buf, s₁) →
    ChangeLooks chunk R e en memOffs slot (s₁.setBuf buf)

/-- A pointer with the same value as before: its lines, then the entries of its section. -/
def PtrLooks (e : Nat) (en : CfgEntry) (memIdx : Nat) (s : ProcState) : Prop :=
  ∀ p pm slot memOffs en₀, en.ptrtgt = some p → s.opt.ptrmems[p]? = some pm →
    pointerSlot s.opt pm.dynmem memIdx = .ok (slot, memOffs) → ¬ (slot.isSome ∧ memOffs = 0) →
    s.buf ≠ 0 → pm.vState[memIdx]? ≠ some .done → s.opt.entries[e]? = some en₀ →
    en₀.vals.old? slot = some s.buf →
    let s₁ := s.emit (.pointer e memIdx s.buf s.buf)
    ChecksLook chunk R en.dynmem memOffs (en.checks.getD []) s₁ ∧
    ∀ s₂, passChecks chunk en memOffs s₁ = .ok (true, s₂) →
      Run.Each (processTarget chunk memIdx slot) (TargetLooks chunk R memIdx slot)
        (((s₂.modifyPtrmem p fun pm => { pm with
          vState := pm.vState.set memIdx (if en.dynval = .ptrOnce then .done else .settled)
          vOffs := pm.vOffs.set memIdx s₂.buf }).emit (.follow e memIdx s₂.buf)).invalidateCaches
            (.ptrmem p)) pm.cfgAct

def ValueLooks (e : Nat) (en : CfgEntry) (memOffs : Ptr) (memIdx : Nat) (slot : Option Nat)
    (s : ProcState) : Prop :=
  if en.ptrtgt.isSome then PtrLooks chunk R e en memIdx s
  else ChangeLooks chunk R e en memOffs slot s

/-- An entry of a class for the object `memIdx`. -/
def ObjEntryLooks (d memIdx : Nat) (s : ProcState) (e : Nat) : Prop :=
  ∀ dm en memOffs memSize buf s₁, s.opt.dynmems[d]? = some dm → s.opt.entries[e]? = some en →
    dm.vMaddr[memIdx]? = some memOffs → memOffs ≠ 0 → dm.vMsize[memIdx]? = some memSize →
    ¬ en.addr + BitVec.ofNat 64 en.type.bytes > memSize →
    fillCacheAndBuf chunk en.type en.cache en.cacheData memOffs s.buf
      (s.modifyDynmem d fun dm => { dm with objIdx := memIdx }) = .ok (some buf, s₁) →
    ValueLooks chunk R e en memOffs memIdx (some memIdx) (s₁.setBuf buf)

/-- A call of the loop over the activated entries. -/
def Visit.Looks (s : ProcState) : Visit → Prop
  | .dynmem d => ∀ dm, s.opt.dynmems[d]? = some dm →
      Run.Each (processObj chunk d dm.cfgAct) (fun s memIdx =>
        Run.Each (processObjEntry chunk d memIdx) (ObjEntryLooks chunk R d memIdx)
          (s.invalidateCaches (.dynmem d)) dm.cfgAct)
        (s.setBuf 0) (List.range dm.vMaddr.length)
  | .entry e => ∀ en buf s₁, s.opt.entries[e]? = some en → en.type.isLate s.opt.libs = false →
      fillCacheAndBuf chunk en.type en.cache en.cacheData 0 s.buf s = .ok (some buf, s₁) →
      ValueLooks chunk R e en 0 0 none (s₁.setBuf buf)

end Looks

/-- The state in which a cycle starts with its calls. -/
def ProcState.cycleStart (s : ProcState) : ProcState :=
  s.opt.cycleCaches.foldl (fun s mem => s.invalidateCaches mem) (s.setBuf 0)

/-- Every look-up in a cycle; `R` gets the calls before and the call itself. -/
def CycleLooks (chunk : Nat) (R : List Visit → Visit → ProcState → Nat → Prop)
    (cfgAct : List Nat) (s : ProcState) : Prop :=
  ∀ pre v post s₁, s.opt.visits none cfgAct = pre ++ v :: post →
    Run.run (fun s v => s.visit chunk v) s.cycleStart pre = .ok s₁ →
    v.Looks chunk (R pre v) s₁

/-! ## What moves in a cycle -/

/-- What stays between two states of a cycle. -/
structure Options.Stays (opt opt' : Options) : Prop where
  same : opt.Same opt'
  idx : List.Forall₂ DynMemEntry.IdxMoves opt.dynmems opt'.dynmems

/-- What a part of a cycle does. -/
structure ProcState.Goes (s s' : ProcState) : Prop where
  stays : s.opt.Stays s'.opt
  flags : s.Flags s'

/-- The class is at one of its objects. -/
def CfgMem.AtObj (cfg : CfgMem) (d : Nat) : Prop :=
  ∃ dm, cfg.dynmems[d]? = some dm ∧ dm.objIdx < dm.vMaddr.length

section Moves

variable {C : ProcEvent → Prop} {opt opt' opt'' : Options} {s s' : ProcState} {d : Nat}

theorem Options.Stays.refl (opt : Options) : opt.Stays opt := ⟨.refl _, Pointwise.refl .refl _⟩

theorem Options.Stays.trans (h : opt.Stays opt') (h' : opt'.Stays opt'') : opt.Stays opt'' :=
  ⟨h.same.trans h'.same, Pointwise.trans DynMemEntry.IdxMoves.trans h.idx h'.idx⟩

theorem ProcState.Goes.refl (s : ProcState) : s.Goes s := ⟨.refl _, .refl _⟩

theorem ProcState.Goes.trans {s'' : ProcState} (h : s.Goes s') (h' : s'.Goes s'') : s.Goes s'' :=
  ⟨h.stays.trans h'.stays, h.flags.trans h'.flags⟩

theorem Steps.goes (h : Steps C s s') : s.Goes s' := ⟨⟨h.same, h.idxMoves⟩, h.flags⟩

theorem goes_modifyVals {e : Nat} {f : EntryVals → EntryVals} (hf : ∀ v, (f v).dims = v.dims)
    (hs : ∀ v, (f v).valSet = v.valSet) : s.Goes (s.modifyVals e f) :=
  ⟨⟨same_modifyVals fun _ _ => hf _, Pointwise.refl .refl _⟩, flags_modifyVals fun _ _ => hs _⟩

/-- The flag is cleared and the value is read. -/
theorem goes_read (e : Nat) (slot : Option Nat) (buf : Value) :
    s.Goes ((s.modifyVals e (·.setFlag false)).emit (.read e slot buf)) :=
  ⟨⟨same_modifyVals fun _ _ => dims_setFlag, Pointwise.refl .refl _⟩,
    flags_event rfl fun _ _ => rfl⟩

theorem goes_invalidate (mem : MemType) : s.Goes (s.invalidateCaches mem) :=
  (steps_invalidate (C := fun _ => True) mem).goes

theorem goes_setBuf (buf : Value) : s.Goes (s.setBuf buf) :=
  (steps_setBuf (C := fun _ => True) buf).goes

theorem goes_emit {ev : ProcEvent} (hev : ev.about = none) : s.Goes (s.emit ev) :=
  ⟨.refl _, flags_emit hev⟩

theorem goes_modifyPtrmem {p : Nat} {f : PtrMemEntry → PtrMemEntry}
    (hf : ∀ pm, (f pm).shape = pm.shape) : s.Goes (s.modifyPtrmem p f) :=
  ⟨⟨same_modifyPtrmem hf, Pointwise.refl .refl _⟩, flags_of_eq rfl fun _ => rfl⟩

theorem Options.Stays.atObj (h : opt.Stays opt') (hd : opt.AtObj d) : opt'.AtObj d := by
  obtain ⟨dm, hdm, hlt⟩ := hd
  obtain ⟨dm', hdm', -⟩ := h.same.dynmem hdm
  obtain ⟨dm₀, hdm₀, hlen, hidx⟩ := Pointwise.getElem? h.idx hdm'
  cases hdm.symm.trans hdm₀
  exact ⟨dm', hdm', by omega⟩

theorem ProcState.Goes.atObj (h : s.Goes s') (hd : s.opt.AtObj d) : s'.opt.AtObj d := h.stays.atObj hd

theorem fillCacheAndBuf_goes {chunk : Nat} {type : VType} {cache : Option CacheRef}
    {cacheData memOffs : Ptr} {buf : Value} {b : Option Value}
    (h : fillCacheAndBuf chunk type cache cacheData memOffs buf s = .ok (b, s')) :
    s.Goes s' := by
  obtain ⟨caches, rfl⟩ := fillCacheAndBuf_spec h
  exact (steps_caches (C := fun _ => True) caches).goes

end Moves

/-! ## Every look-up -/

section Mono

variable {chunk : Nat} {R R' : ProcState → Nat → Prop} {s s' : ProcState} {e memIdx : Nat}
  {en : CfgEntry} {memOffs : Ptr} {slot : Option Nat}

theorem checksLook_mono {dynmem : Option Nat} {chks : List CheckEntry}
    (hR : ∀ s' r, s.Goes s' → R s' r → R' s' r)
    (h : ChecksLook chunk R dynmem memOffs chks s) : ChecksLook chunk R' dynmem memOffs chks s := by
  intro pre chk post s' cfgRef hchks hpass hlate href
  refine hR s' cfgRef ?_ (h pre chk post s' cfgRef hchks hpass hlate href)
  rcases processChecks_spec hpass with ⟨caches, rfl | ⟨hfalse, -⟩⟩
  · exact (steps_caches (C := fun _ => True) caches).goes
  · cases hfalse

theorem handleDynval_goes {t : NumType} {readVal value value' : Value} {cstr : Option (List UInt8)}
    (h : handleDynval t e en readVal value cstr memOffs slot s = .ok (value', s')) :
    s.Goes s' := by
  rcases handleDynval_spec h with ⟨rfl | ⟨text, rfl⟩, -⟩
  · exact .refl _
  · exact goes_modifyVals (fun _ => dims_setCstr) fun _ => valSet_setCstr

theorem changeLooks_mono (hR : ∀ s' r, s.Goes s' → R s' r → R' s' r)
    (h : ChangeLooks chunk R e en memOffs slot s) : ChangeLooks chunk R' e en memOffs slot s := by
  intro en₀ old value cstr t he hold hvalue hcstr ht
  obtain ⟨hwish, hlines⟩ := h en₀ old value cstr t he hold hvalue hcstr ht
  have h₁ : s.Goes (((s.modifyVals e (·.setFlag false)).emit (.read e slot s.buf)).modifyVals e
      (·.setOld slot (t.store old s.buf))) :=
    (goes_read e slot s.buf).trans (goes_modifyVals (fun _ => dims_setOld) fun _ => valSet_setOld)
  refine ⟨fun hd cfgRef href => hR _ _ h₁ (hwish hd cfgRef href), fun hd value' s₂ hs₂ => ?_⟩
  have h₂ : s.Goes (s₂.modifyVals e (·.setWish slot value')) :=
    h₁.trans ((handleDynval_goes hs₂).trans
      (goes_modifyVals (fun _ => dims_setWish) fun _ => valSet_setWish))
  exact checksLook_mono (fun s' r hm => hR s' r (h₂.trans hm)) (hlines hd value' s₂ hs₂)

theorem targetLooks_mono (hR : ∀ s' r, s.Goes s' → R s' r → R' s' r)
    (h : TargetLooks chunk R memIdx slot s e) : TargetLooks chunk R' memIdx slot s e := by
  intro en p pm memOffs buf s₁ he hp hpm hoffs hfill
  refine changeLooks_mono (fun s' r hm => hR s' r ?_)
    (h en p pm memOffs buf s₁ he hp hpm hoffs hfill)
  exact (fillCacheAndBuf_goes hfill).trans ((goes_setBuf buf).trans hm)

/-- What the rounds of a loop keep, the loop keeps. -/
theorem foldlM_goes {ι : Type} {f : ProcState → ι → Except Fault ProcState} {l : List ι}
    (hf : ∀ s s' i, i ∈ l → f s i = .ok s' → s.Goes s') (h : l.foldlM f s = .ok s') :
    s.Goes s' := by
  induction l generalizing s with
  | nil =>
    cases h
    exact .refl _
  | cons i l ih =>
    obtain ⟨s₁, h₁, h⟩ := Run.bind_eq_ok.mp h
    exact (hf s s₁ i List.mem_cons_self h₁).trans
      (ih (fun s s' j hj => hf s s' j (List.mem_cons_of_mem i hj)) h)

/-- A loop: what its calls have in common with the state at its start. -/
theorem each_mono {f : ProcState → Nat → Except Fault ProcState} {P P' : ProcState → Nat → Prop}
    {l : List Nat} (hf : ∀ s s' i, i ∈ l → f s i = .ok s' → s.Goes s')
    (hP : ∀ s' i, i ∈ l → s.Goes s' → P s' i → P' s' i) (h : Run.Each f P s l) :
    Run.Each f P' s l := by
  intro pre i s' hpre hrun
  have hsub : ∀ j ∈ pre, j ∈ l := fun j hj => hpre.subset (List.mem_append_left [i] hj)
  refine hP s' i (hpre.subset (by simp)) ?_ (h pre i s' hpre hrun)
  exact foldlM_goes (fun s s' j hj => hf s s' j (hsub j hj)) hrun

theorem processTarget_goes (h : processTarget chunk memIdx slot s e = .ok s') :
    s.Goes s' :=
  (processTarget_steps (C := fun _ => True) (fun _ => ⟨trivial, trivial⟩) h).goes

theorem passChecks_goes {b : Bool} (h : passChecks chunk en memOffs s = .ok (b, s')) :
    s.Goes s' := (passChecks_steps (C := fun _ => True) h).goes

theorem ptrLooks_mono (hR : ∀ s' r, s.Goes s' → R s' r → R' s' r)
    (h : PtrLooks chunk R e en memIdx s) : PtrLooks chunk R' e en memIdx s := by
  intro p pm slot memOffs en₀ ht hp hslot hnull h0 hdone he hold
  obtain ⟨hlines, hfollow⟩ := h p pm slot memOffs en₀ ht hp hslot hnull h0 hdone he hold
  have h₁ : s.Goes (s.emit (.pointer e memIdx s.buf s.buf)) := goes_emit rfl
  refine ⟨checksLook_mono (fun s' r hm => hR s' r (h₁.trans hm)) hlines, fun s₂ hpass => ?_⟩
  have h₂ : s.Goes s₂ := h₁.trans (passChecks_goes hpass)
  have h₃ : s.Goes ((s₂.modifyPtrmem p fun pm => { pm with
      vState := pm.vState.set memIdx (if en.dynval = .ptrOnce then .done else .settled)
      vOffs := pm.vOffs.set memIdx s₂.buf }).emit (.follow e memIdx s₂.buf)) :=
    h₂.trans ((goes_modifyPtrmem fun pm => by simp [PtrMemEntry.shape]).trans (goes_emit rfl))
  refine each_mono (fun s s' t _ => processTarget_goes) (fun s' t _ hm => ?_) (hfollow s₂ hpass)
  exact targetLooks_mono fun s'' r hm' => hR s'' r
    (h₃.trans ((goes_invalidate (.ptrmem p)).trans (hm.trans hm')))

theorem valueLooks_mono (hR : ∀ s' r, s.Goes s' → R s' r → R' s' r)
    (h : ValueLooks chunk R e en memOffs memIdx slot s) :
    ValueLooks chunk R' e en memOffs memIdx slot s := by
  unfold ValueLooks at h ⊢
  split
  · rename_i ht
    rw [if_pos ht] at h
    exact ptrLooks_mono hR h
  · rename_i ht
    rw [if_neg ht] at h
    exact changeLooks_mono hR h

/-- An entry of a class is processed when the class is at its object. -/
theorem objEntryLooks_mono {d : Nat}
    (hR : ∀ s' r, s.Goes s' → s'.opt.AtObj d → R s' r → R' s' r)
    (h : ObjEntryLooks chunk R d memIdx s e) : ObjEntryLooks chunk R' d memIdx s e := by
  intro dm en memOffs memSize buf s₁ hd he hoffs hnull hsize hin hfill
  have hi : memIdx < dm.vMaddr.length := (List.getElem?_eq_some_iff.mp hoffs).1
  have h₁ : s.Goes (s.modifyDynmem d fun dm => { dm with objIdx := memIdx }) :=
    Steps.goes (C := fun _ => True) (.single (.objIdx hd hi))
  have hat : (s.modifyDynmem d fun dm => { dm with objIdx := memIdx }).opt.AtObj d :=
    ⟨{ dm with objIdx := memIdx }, by simp [ProcState.modifyDynmem, hd], hi⟩
  have h₂ : (s.modifyDynmem d fun dm => { dm with objIdx := memIdx }).Goes (s₁.setBuf buf) :=
    (fillCacheAndBuf_goes hfill).trans (goes_setBuf buf)
  refine valueLooks_mono (fun s' r hm => ?_)
    (h dm en memOffs memSize buf s₁ hd he hoffs hnull hsize hin hfill)
  exact hR s' r (h₁.trans (h₂.trans hm)) (hm.atObj (h₂.atObj hat))

/-- A condition that always holds. -/
theorem visitLooks_all (hR : ∀ s r, R s r) (v : Visit) (s : ProcState) : v.Looks chunk R s := by
  have hlines : ∀ dynmem memOffs chks s, ChecksLook chunk R dynmem memOffs chks s :=
    fun _ _ _ _ _ _ _ _ _ _ _ _ _ => hR _ _
  have hchange : ∀ e en memOffs slot s, ChangeLooks chunk R e en memOffs slot s := by
    intro e en memOffs slot s en₀ old value cstr t he hold hvalue hcstr ht
    exact ⟨fun _ _ _ => hR _ _, fun _ _ _ _ => hlines _ _ _ _⟩
  have hvalue : ∀ e en memOffs memIdx slot s, ValueLooks chunk R e en memOffs memIdx slot s := by
    intro e en memOffs memIdx slot s
    unfold ValueLooks
    split
    · intro p pm slot memOffs en₀ ht hp hslot hnull h0 hdone he hold
      exact ⟨hlines _ _ _ _, fun s₂ _ _ _ _ _ _ _ _ _ _ _ _ _ _ _ _ _ => hchange _ _ _ _ _⟩
    · exact hchange _ _ _ _ _
  cases v with
  | dynmem d => exact fun _ _ _ _ _ _ _ _ _ _ _ _ _ _ _ _ _ _ _ _ _ _ _ _ _ => hvalue _ _ _ _ _ _
  | entry e => exact fun _ _ _ _ _ _ => hvalue _ _ _ _ _ _

theorem processValue_goes (hen : s.Is e en)
    (h : processValue chunk e en memOffs memIdx slot s = .ok s') : s.Goes s' := by
  refine Steps.goes (C := fun _ => True) (processValue_steps hen ⟨fun _ _ => ⟨trivial, trivial⟩,
    fun _ => ⟨⟨fun _ => trivial, fun _ _ _ _ _ _ _ _ => ⟨trivial, trivial⟩⟩, fun _ _ => trivial⟩⟩ h)

theorem processObjEntry_goes {d : Nat} (h : processObjEntry chunk d memIdx s e = .ok s') :
    s.Goes s' := by
  cases hd : s.opt.dynmems[d]? with
  | none =>
    unfold processObjEntry at h
    rw [hd] at h
    cases h
  | some dm =>
    obtain h | ⟨en, memOffs, s₁, h₁, he, -, h⟩ :=
      processObjEntry_cases (C := fun _ => True) hd h
    · exact h.goes
    · obtain ⟨en₁, he₁, hs⟩ := h₁.same.entry he
      exact h₁.goes.trans (processValue_goes ⟨en₁, he₁, hs⟩ h)

theorem processObj_goes {d : Nat} {l : List Nat} (h : processObj chunk d l s memIdx = .ok s') :
    s.Goes s' := by
  unfold processObj at h
  obtain ⟨s₁, h₁, h⟩ := Run.bind_eq_ok.mp h
  cases h
  refine (goes_invalidate (.dynmem d)).trans ?_
  exact (foldlM_goes (fun s s' e _ => processObjEntry_goes) h₁).trans
    (steps_write (C := fun _ => True) (.dynmem d)).goes

/-- **All look-ups of a call.** -/
theorem visitLooks_mono {v : Visit} (hR : ∀ s' r, s.Goes s' →
      (∀ d, v = .dynmem d → s'.opt.AtObj d) → R s' r → R' s' r)
    (h : v.Looks chunk R s) : v.Looks chunk R' s := by
  cases v with
  | dynmem d =>
    intro dm hd
    refine each_mono (fun s s' k _ => processObj_goes) (fun s₁ k _ h₁ hobj => ?_) (h dm hd)
    refine each_mono (fun s s' e _ => processObjEntry_goes) (fun s₂ e _ h₂ => ?_) hobj
    refine objEntryLooks_mono fun s' r hm hat => hR s' r ?_ ?_
    · exact (goes_setBuf 0).trans (h₁.trans ((goes_invalidate (.dynmem d)).trans (h₂.trans hm)))
    · rintro d' ⟨⟩
      exact hat
  | entry e =>
    intro en buf s₁ he hlate hfill
    refine valueLooks_mono (fun s' r hm => hR s' r ?_ fun d hd => by cases hd)
      (h en buf s₁ he hlate hfill)
    exact (fillCacheAndBuf_goes hfill).trans ((goes_setBuf buf).trans hm)

end Mono

/-! ## Classes that are processed -/

/-- An entry is inside of an object of the given size (`process_dynmem_cfg_act`). -/
def CfgEntry.Within (en : CfgEntry) (memSize : SizeT) : Prop :=
  ¬ en.addr + BitVec.ofNat 64 en.type.bytes > memSize

/-- The entry is processed for the object: the object stays, and the entry is inside of it. -/
structure CfgMem.HandlesAt (cfg : CfgMem) (d e memIdx : Nat) : Prop where
  object : ∃ dm memOffs memSize en, cfg.dynmems[d]? = some dm ∧ dm.vMaddr[memIdx]? = some memOffs ∧
    memOffs ≠ 0 ∧ dm.vMsize[memIdx]? = some memSize ∧ cfg.entries[e]? = some en ∧
    en.Within memSize

/-- An object of the class is processed. -/
def CfgMem.Handles (cfg : CfgMem) (d : Nat) : Prop :=
  ∃ dm, cfg.dynmems[d]? = some dm ∧ ∃ e ∈ dm.cfgAct, ∃ memIdx, cfg.HandlesAt d e memIdx

section Handles

variable {chunk d e memIdx : Nat} {s s' s₀ : ProcState} {cfg cfg' : CfgMem}

theorem CfgMem.HandlesAt.congr (h : cfg.HandlesAt d e memIdx) (hd : cfg'.dynmems = cfg.dynmems)
    (he : cfg'.entries = cfg.entries) : cfg'.HandlesAt d e memIdx := by
  obtain ⟨dm, memOffs, memSize, en, h⟩ := h
  exact ⟨dm, memOffs, memSize, en, by rw [hd, he]; exact h⟩

/-- An entry is skipped, or its class is at the object then. -/
theorem processObjEntry_atObj (h : processObjEntry chunk d memIdx s e = .ok s') :
    (s' = s ∧ ¬ s.opt.HandlesAt d e memIdx) ∨ s'.opt.AtObj d := by
  unfold processObjEntry at h
  split at h
  · rename_i dm en hd he
    split at h
    · cases h
    · rename_i memOffs hoffs
      have hi : memIdx < dm.vMaddr.length := (List.getElem?_eq_some_iff.mp hoffs).1
      split at h
      · rename_i h0
        cases h
        refine .inl ⟨rfl, fun hh => ?_⟩
        obtain ⟨dm', memOffs', -, -, hd', hoffs', hne, -⟩ := hh
        cases hd.symm.trans hd'
        cases hoffs.symm.trans hoffs'
        exact hne h0
      · split at h
        · cases h
        · rename_i memSize hsize
          split at h
          · rename_i hout
            cases h
            refine .inl ⟨rfl, fun hh => ?_⟩
            obtain ⟨dm', memOffs', memSize', en', hd', -, -, hsize', he', hin⟩ := hh
            cases hd.symm.trans hd'
            cases he.symm.trans he'
            cases hsize.symm.trans hsize'
            exact hin hout
          · obtain ⟨⟨buf, s₁⟩, hfill, h⟩ := Run.bind_eq_ok.mp h
            have hat : (s.modifyDynmem d fun dm => { dm with objIdx := memIdx }).opt.AtObj d :=
              ⟨{ dm with objIdx := memIdx }, by simp [ProcState.modifyDynmem, hd], hi⟩
            have h₁ : s₁.opt.AtObj d := (fillCacheAndBuf_goes hfill).atObj hat
            have hs₁ : s.opt.Same s₁.opt := (same_modifyDynmem
              (f := fun dm => { dm with objIdx := memIdx }) fun _ => rfl).trans
                (fillCacheAndBuf_goes hfill).stays.same
            cases buf with
            | none =>
              cases h
              exact .inr h₁
            | some buf =>
              obtain ⟨en₁, he₁, hs⟩ := hs₁.entry he
              have hgoes := processValue_goes (s := s₁.setBuf buf) ⟨en₁, he₁, hs⟩ h
              exact .inr (hgoes.atObj h₁)
  · cases h

/-- The entries of a class for one object: nothing has happened, or the class is at the object. -/
theorem processObj_atObj {l : List Nat} (h : processObj chunk d l s memIdx = .ok s') :
    (s'.opt.dynmems = s.opt.dynmems ∧ s'.opt.entries = s.opt.entries ∨ s'.opt.AtObj d) ∧
      ((∃ e ∈ l, s.opt.HandlesAt d e memIdx) → s'.opt.AtObj d) := by
  unfold processObj at h
  obtain ⟨s₁, h₁, h⟩ := Run.bind_eq_ok.mp h
  cases h
  obtain ⟨hkept, hhot⟩ := Run.run_until (P := fun s₂ => s₂ = s.invalidateCaches (.dynmem d))
    (Q := fun s₂ => s₂.opt.AtObj d) (H := fun e => s.opt.HandlesAt d e memIdx)
    (fun s₂ e s₃ hs₂ h₂ => (processObjEntry_atObj h₂).imp_left fun h => h.1.trans hs₂)
    (fun s₂ e s₃ hq h₂ => (processObjEntry_goes h₂).atObj hq)
    (fun s₂ e s₃ hat hs₂ h₂ => (processObjEntry_atObj h₂).resolve_left fun h => h.2 (by
      rw [hs₂]
      exact hat.congr rfl rfl)) rfl h₁
  refine ⟨hkept.imp_left fun heq => ?_, hhot⟩
  rw [heq]
  exact ⟨rfl, rfl⟩

/-- **After a class was processed** that has an object to process, it is at one of its objects. -/
theorem processDynmemCfgAct_atObj (h : processDynmemCfgAct chunk d s = .ok s')
    (hd : s.opt.Handles d) : s'.opt.AtObj d := by
  obtain ⟨dm, hdm, e, he, memIdx, hat⟩ := hd
  unfold processDynmemCfgAct at h
  rw [hdm] at h
  obtain ⟨s₁, h₁, h⟩ := Run.bind_eq_ok.mp h
  cases h
  have hlt : memIdx < dm.vMaddr.length := by
    obtain ⟨dm', memOffs, -, -, hdm', hoffs, -⟩ := hat
    cases hdm.symm.trans hdm'
    exact (List.getElem?_eq_some_iff.mp hoffs).1
  refine (Run.run_until (P := fun s₂ => s₂.opt.dynmems = s.opt.dynmems ∧
      s₂.opt.entries = s.opt.entries) (Q := fun s₂ => s₂.opt.AtObj d) (H := fun k => k = memIdx)
    (fun s₂ k s₃ hs₂ h₂ => ?_) (fun s₂ k s₃ hq h₂ => (processObj_goes h₂).atObj hq)
    (fun s₂ k s₃ hk hs₂ h₂ => ?_) ⟨rfl, rfl⟩ h₁).2 ⟨memIdx, List.mem_range.mpr hlt, rfl⟩
  · exact (processObj_atObj h₂).1.imp_left fun hs₃ => ⟨hs₃.1.trans hs₂.1, hs₃.2.trans hs₂.2⟩
  · subst hk
    exact (processObj_atObj h₂).2 ⟨e, he, hat.congr hs₂.1 hs₂.2⟩

theorem visit_goes {v : Visit} (h : s.visit chunk v = .ok s') : s.Goes s' := by
  cases v with
  | dynmem d =>
    have h : Steps (Allowed [] s.opt) s s' := processDynmemCfgAct_steps (cycleEvents_allowed [] _) h
    exact h.goes
  | entry e =>
    simp only [ProcState.visit] at h
    cases he : s.opt.entries[e]? with
    | none =>
      rw [he] at h
      cases h
    | some en =>
      rw [he] at h
      rcases processStaticEntry_cases (C := fun _ => True) h with h | ⟨s₁, h₁, h⟩
      · exact h.goes
      · obtain ⟨en₁, he₁, hs⟩ := h₁.same.entry he
        exact h₁.goes.trans (processValue_goes ⟨en₁, he₁, hs⟩ h)

end Handles

/-! ## Sections of classes -/

section Owners

variable {chunk : Nat} {cfg cfg' : CfgMem} {s s' : Trainer} {i : LoopInput}

theorem CfgMem.SameFixed.sameOwners (h : cfg.SameFixed cfg') : cfg.SameOwners cfg' := by
  constructor
  · have := congrArg (List.map fun en : CfgEntry => (en.dynmem, en.ptrtgt)) h.entries
    simp only [List.map_map] at this
    exact this
  · have := congrArg (List.map fun pm : PtrMemEntry => pm.dynmem) h.ptrmems
    simp only [List.map_map] at this
    exact this

/-- **All phases** keep where entries and sections belong. -/
theorem step_owners (h : s.step chunk i = .ok s') (hl : s.opt.Linked) :
    s.opt.SameOwners s'.opt.toCfgMem :=
  (step_fixed h hl).sameOwners

end Owners

/-! ## Indices in range -/

/-- The class whose object a reference takes. -/
def CfgMem.refClass (cfg : CfgMem) (cfgRef : Nat) : Option Nat :=
  (cfg.classOf cfgRef).or ((cfg.sectionOf cfgRef).bind fun p => (cfg.ptrmems[p]?).bind (·.dynmem))

/-- The object that the class of a reference is at has an element, or there are no elements. -/
def CfgMem.IdxFits (cfg : CfgMem) (cfgRef : Nat) : Prop :=
  ∀ d ∈ cfg.refClass cfgRef, ∀ dm ∈ cfg.dynmems[d]?, ∀ en ∈ cfg.entries[cfgRef]?,
    en.vals.vOldval = [] ∨ dm.objIdx < en.vals.vOldval.length

instance (cfg : CfgMem) (cfgRef : Nat) : Decidable (cfg.IdxFits cfgRef) :=
  inferInstanceAs (Decidable (∀ d ∈ cfg.refClass cfgRef, ∀ dm ∈ cfg.dynmems[d]?, _))

section Range

variable {opt opt' : Options} {cfg : CfgMem} {cfgRef d n : Nat} {en : CfgEntry} {dm : DynMemEntry}

/-- The vectors of a referenced entry have an element for each object of the class. -/
theorem refClass_dims (hl : cfg.Linked) (ha : cfg.Aligned) (ho : cfg.SectionsOwned)
    (hclass : cfg.refClass cfgRef = some d) (hd : cfg.dynmems[d]? = some dm)
    (he : cfg.entries[cfgRef]? = some en) :
    ∃ n, en.vals.dims = (n, n, n) ∧ dm.vMaddr.length ≤ n ∧
      ∀ p pm, en.dynmem = none → en.ptrmem = some p → cfg.ptrmems[p]? = some pm →
        n ≤ pm.vState.length := by
  have hnum : ∀ (e : Nat) (en' : CfgEntry), cfg.entries[e]? = some en' → en'.dynmem = some d →
      cfg.objs en' = some dm.vMaddr := by
    intro e en' he' hd'
    simp [CfgMem.objs, hd', hd]
  simp only [CfgMem.refClass, CfgMem.classOf, CfgMem.sectionOf, he, Option.bind_some] at hclass
  cases hdyn : en.dynmem with
  | some d' =>
    rw [hdyn, Option.some_or] at hclass
    cases hclass
    have hobjs := hnum cfgRef en he hdyn
    refine ⟨_, ha.counts.values cfgRef en _ he hobjs, (numObjs_of_objs he hobjs).ge,
      fun p pm hnone => by cases hnone⟩
  | none =>
    rw [hdyn, Option.none_or] at hclass
    obtain ⟨p, hsec, hclass⟩ := Option.bind_eq_some_iff.mp hclass
    obtain ⟨pm, hp, hpd⟩ := Option.bind_eq_some_iff.mp hclass
    have hmem : cfgRef ∈ pm.cfg := (hl.mem_cfg p pm cfgRef hp).mpr ⟨en, he, hsec⟩
    refine ⟨_, ha.counts.targets p pm cfgRef en hp hmem he, ?_, fun p' pm' _ hp' hpm' => ?_⟩
    · obtain ⟨e, hce, hte⟩ := ho p d (by rw [hp]; exact hpd)
      obtain ⟨en', he', hd'⟩ := Option.bind_eq_some_iff.mp hce
      have hobjs := hnum e en' he' hd'
      rw [← numObjs_of_objs he' hobjs]
      have hlt : e ∈ Finset.range cfg.entries.length :=
        Finset.mem_range.mpr (List.getElem?_eq_some_iff.mp he').1
      have := Finset.single_le_sum (f := fun e => if cfg.tgt e = some p then cfg.numObjs e else 0)
        (fun _ _ => Nat.zero_le _) hlt
      simpa [hte, CfgMem.sumTo] using this
    · cases hsec.symm.trans hp'
      cases hp.symm.trans hpm'
      have := congrArg (·.1) (ha.counts.states p pm hp)
      simp only [PtrMemEntry.dims] at this
      omega

theorem refClass_of_same (h : opt.Same opt') : opt'.refClass cfgRef = opt.refClass cfgRef := by
  have hsec : opt'.sectionOf cfgRef = opt.sectionOf cfgRef := by
    have := congrArg (fun l => (l[cfgRef]?).bind fun x => x.1.ptrmem) h.entries
    simp only [List.getElem?_map, Option.bind_map] at this
    exact this
  have hown : ∀ p : Nat, (opt'.ptrmems[p]?).bind (·.dynmem) = (opt.ptrmems[p]?).bind (·.dynmem) := by
    intro p
    have := congrArg (fun l => (l[p]?).bind fun x => x.1.dynmem) h.ptrmems
    simp only [List.getElem?_map, Option.bind_map] at this
    exact this
  simp only [CfgMem.refClass, h.classOf, hsec, hown]

/-- What fits at the start of a cycle, or is set in it, fits. -/
theorem idxFits_of_moves (hl : opt.Linked) (ha : opt.Aligned) (ho : opt.SectionsOwned)
    (hm : opt.Stays opt') (h : ∀ d, opt.refClass cfgRef = some d →
      opt.IdxFits cfgRef ∨ opt'.AtObj d) : opt'.IdxFits cfgRef := by
  intro d hclass dm' hd' en' he'
  obtain ⟨en, he, hs⟩ := hm.same.symm.entry he'
  obtain ⟨dm, hd, hlen, hidx⟩ := Pointwise.getElem? hm.idx hd'
  have hclass₀ : opt.refClass cfgRef = some d := (refClass_of_same hm.same).symm.trans hclass
  obtain ⟨n, hdims, hle, -⟩ := refClass_dims hl ha ho hclass₀ hd he
  have hdims' : en'.vals.dims = (n, n, n) := (CfgEntry.shape_fields hs).2.2.2.2.2.symm.trans hdims
  have hold : en.vals.vOldval.length = n := congrArg (·.1) hdims
  have hold' : en'.vals.vOldval.length = n := congrArg (·.1) hdims'
  rw [hold', ← List.length_eq_zero_iff, hold']
  rcases h d hclass₀ with hfit | ⟨dm₁, hd₁, hlt⟩
  · have := hfit d hclass₀ dm hd en he
    rw [← List.length_eq_zero_iff, hold] at this
    omega
  · cases hd'.symm.trans hd₁
    omega

theorem refVal_inRange {v : EntryVals} {objIdx : Nat} (hv : v.dims = (n, n, n))
    (hi : v.vOldval = [] ∨ objIdx < v.vOldval.length) : ∃ r, v.refVal objIdx = .ok r := by
  have h1 : v.vOldval.length = n := congrArg (·.1) hv
  have h2 : v.vValue.length = n := congrArg (·.2.1) hv
  rcases hi with h0 | hi
  · have h0' : v.vValue = [] := by
      rw [h0] at h1
      exact List.length_eq_zero_iff.mp (h2.trans h1.symm)
    refine ⟨none, ?_⟩
    unfold EntryVals.refVal
    simp [h0, h0']
  · exact refVal_ok hv (h1 ▸ hi)

/-- **A look-up of a reference that fits** is in range. -/
theorem handleCfgRef_inRange (hl : opt.Linked) (ha : opt.Aligned) (ho : opt.SectionsOwned)
    (hm : opt.Stays opt') (h : opt'.IdxFits cfgRef) :
    handleCfgRef opt' cfgRef ≠ .error .outOfBounds := by
  unfold handleCfgRef
  cases he' : opt'.entries[cfgRef]? with
  | none => exact fun herr => by cases herr
  | some en' =>
    obtain ⟨en, he, hs⟩ := hm.same.symm.entry he'
    obtain ⟨-, -, hdynEq, hsecEq, -, hdimsEq⟩ := CfgEntry.shape_fields hs
    -- the class of the reference, its object, and the number of elements
    have hclassDims : ∀ d dm', opt'.refClass cfgRef = some d → opt'.dynmems[d]? = some dm' →
        (∃ n, en'.vals.dims = (n, n, n) ∧ ∀ p pm', en'.dynmem = none → en'.ptrmem = some p →
          opt'.ptrmems[p]? = some pm' → n ≤ pm'.vState.length) ∧
          (en'.vals.vOldval = [] ∨ dm'.objIdx < en'.vals.vOldval.length) := by
      intro d dm' hclass hd'
      obtain ⟨dm, hd, hlen, hidx⟩ := Pointwise.getElem? hm.idx hd'
      obtain ⟨n, hdims, -, hstate⟩ := refClass_dims hl ha ho
        ((refClass_of_same hm.same).symm.trans hclass) hd he
      refine ⟨⟨n, hdimsEq.symm.trans hdims, fun p pm' hnone hsec hp' => ?_⟩,
        h d hclass dm' hd' en' he'⟩
      obtain ⟨pm, hp, hps⟩ := hm.same.symm.ptrmem hp'
      rw [← (PtrMemEntry.shape_fields hps).2.2.2.1]
      exact hstate p pm (hdynEq.trans hnone) (hsecEq.trans hsec) hp
    dsimp only
    cases hdyn : opt'.dynmem? en'.dynmem with
    | some dm' =>
      obtain ⟨d, hd, hd'⟩ := Option.bind_eq_some_iff.mp hdyn
      have hclass : opt'.refClass cfgRef = some d := by
        simp [CfgMem.refClass, CfgMem.classOf, he', hd]
      obtain ⟨⟨n, hdims, -⟩, hfit⟩ := hclassDims d dm' hclass hd'
      obtain ⟨r, hr⟩ := refVal_inRange hdims hfit
      simp only [hr]
      exact fun herr => by cases herr
    | none =>
      cases hsec : en'.ptrmem.bind (opt'.ptrmems[·]?) with
      | none => exact fun herr => by cases herr
      | some pm' =>
        dsimp only
        cases hown : opt'.dynmem? pm'.dynmem with
        | none => exact fun herr => by cases herr
        | some dm' =>
          obtain ⟨p, hp, hp'⟩ := Option.bind_eq_some_iff.mp hsec
          obtain ⟨d, hd, hd'⟩ := Option.bind_eq_some_iff.mp hown
          have hnone : en'.dynmem = none := by
            by_contra hne
            have := hl.classes cfgRef en he (by
              rw [hdynEq]
              exact Option.isSome_iff_ne_none.mpr hne)
            rw [hsecEq, hp] at this
            cases this
          have hclass : opt'.refClass cfgRef = some d := by
            simp [CfgMem.refClass, CfgMem.classOf, CfgMem.sectionOf, he', hnone, hp, hp', hd]
          obtain ⟨⟨n, hdims, hstate⟩, hfit⟩ := hclassDims d dm' hclass hd'
          obtain ⟨r, hr⟩ := refVal_inRange hdims hfit
          have hlen : (if en'.vals.valSet then en'.vals.vValue else en'.vals.vOldval).length =
              n := by
            split
            · exact congrArg (·.2.1) hdims
            · exact congrArg (·.1) hdims
          have hlen' : en'.vals.vOldval.length = n := congrArg (·.1) hdims
          simp only [hr]
          generalize (if en'.vals.valSet then en'.vals.vValue else en'.vals.vOldval) = vvec at hlen ⊢
          split
          · exact fun herr => by cases herr
          · rename_i hne
            have hpos : n ≠ 0 := fun h0 => hne (List.length_eq_zero_iff.mp (hlen.trans h0))
            have hlt : dm'.objIdx < pm'.vState.length := by
              have := hstate p pm' hnone hp hp'
              rw [← List.length_eq_zero_iff, hlen'] at hfit
              omega
            rw [List.getElem?_eq_getElem hlt]
            split
            · rename_i hbad
              cases hbad
            · exact fun herr => by cases herr
            · exact fun herr => by cases herr

end Range

theorem handleCfgRef_congr {cfgRef : Nat} (he : opt.entries[cfgRef]? = opt'.entries[cfgRef]?)
    (hd : opt.dynmems = opt'.dynmems) (hp : opt.ptrmems = opt'.ptrmems) (hl : opt.libs = opt'.libs) :
    handleCfgRef opt cfgRef = handleCfgRef opt' cfgRef := by
  unfold handleCfgRef handleCfgRef.staticRef Options.dynmem?
  rw [he, hd, hp, hl]

/-! ## Cycles -/

/-- Where a reference of a call is looked up: its class has elements for the object that it was at
when the cycle started, or is the one that is processed, or was processed before in the cycle and had
an object. -/
def ProcState.RefCurrent (chunk : Nat) (s : ProcState) (pre : List Visit) (v : Visit)
    (cfgRef : Nat) : Prop :=
  ∀ d, s.opt.refClass cfgRef = some d → s.opt.IdxFits cfgRef ∨ v = .dynmem d ∨
    ∃ pre₁ pre₂ s₁, pre = pre₁ ++ .dynmem d :: pre₂ ∧
      Run.run (fun s v => s.visit chunk v) s.cycleStart pre₁ = .ok s₁ ∧ s₁.opt.Handles d

/-- The index of every look-up is smaller than the length of the vector. -/
def CycleInRange (chunk : Nat) (cfgAct : List Nat) (s : ProcState) : Prop :=
  CycleLooks chunk (fun _ _ s' cfgRef => handleCfgRef s'.opt cfgRef ≠ .error .outOfBounds) cfgAct s

section Cycles

variable {chunk : Nat} {cfgAct : List Nat} {s s' : ProcState}

theorem cycleStart_steps {C : ProcEvent → Prop} : Steps C s s.cycleStart :=
  (steps_setBuf 0).trans (foldl_steps (fun _ mem => steps_invalidate mem) _ _)

/-- A cycle makes the calls one after the other, then writes the caches. -/
theorem processActCfg_visits : processActCfg chunk cfgAct s =
    (Run.run (fun s v => s.visit chunk v) s.cycleStart (s.opt.visits none cfgAct)).map fun s' =>
      s.opt.cycleCaches.foldl (fun s mem => s.writeCaches mem) s' := by
  unfold processActCfg
  have hsame : s.opt.Same s.cycleStart.opt := (cycleStart_steps (C := fun _ => True)).same
  dsimp only
  rw [show s.opt.cycleCaches.foldl (fun s mem => s.invalidateCaches mem) (s.setBuf 0) =
    s.cycleStart from rfl, processEntries_visits none hsame]
  rfl

theorem visits_goes {vs : List Visit} (h : Run.run (fun s v => s.visit chunk v) s vs = .ok s') :
    s.Goes s' :=
  foldlM_goes (fun _ _ _ _ => visit_goes) h

/-- **A cycle whose look-ups are current** has all of them in range. -/
theorem cycle_refs (hl : s.opt.Linked) (ha : s.opt.Aligned) (ho : s.opt.SectionsOwned)
    (h : CycleLooks chunk (fun pre v _ cfgRef => s.RefCurrent chunk pre v cfgRef) cfgAct s) :
    CycleInRange chunk cfgAct s := by
  intro pre v post s₁ hvisits hrun
  have hstart : s.Goes s.cycleStart := (cycleStart_steps (C := fun _ => True)).goes
  refine visitLooks_mono (fun s' cfgRef hm hat hcur => ?_) (h pre v post s₁ hvisits hrun)
  have hs' : s.opt.Stays s'.opt := (hstart.trans ((visits_goes hrun).trans hm)).stays
  refine handleCfgRef_inRange hl ha ho hs' (idxFits_of_moves hl ha ho hs' fun d hd => ?_)
  rcases hcur d hd with hfit | hv | ⟨pre₁, pre₂, s₂, rfl, hrun₂, hhandles⟩
  · exact .inl hfit
  · exact .inr (hat d hv)
  · rw [Run.run_append, hrun₂] at hrun
    have hrun : Run.run (fun s v => s.visit chunk v) s₂ (.dynmem d :: pre₂) = .ok s₁ := hrun
    obtain ⟨s₃, hvisit, hrun⟩ := Run.bind_eq_ok.mp hrun
    exact .inr (hm.atObj ((visits_goes hrun).atObj (processDynmemCfgAct_atObj hvisit hhandles)))

end Cycles

section Runs

end Runs

/-- The value of a node that an object points to, and a copy of it. -/
def nodeRefLines : List Str :=
  ["game", "ptrmemstart Node 16", "Val 0x8 u8 5 a a", "ptrmemend", "dynmemstart Obj 8 0x400 0x8",
    "Next 0x0 p Node always", "dynmemend", "Copy 0x1000 u8 Val b a"].map String.toList

/-- A value of a class, and a copy of it. -/
def hpRefLines : List Str :=
  ["game", "dynmemstart Obj 8 0x400 0x8", "HP 0x0 u8 5 a a", "dynmemend",
    "Copy 0x1000 u8 HP b a"].map String.toList

/-- Two objects; a cycle; the entry is switched off and the second object is freed. -/
def LoopInput.freeLast (mem : Ptr → UInt8) : List LoopInput :=
  let alloc := fun addr => FifoMsg.malloc (HackMsg.allocMsg addr 8 0x400) [] 0
  .idle mem :: { idle mem with msgs := [alloc 0x20, alloc 0x40] } :: List.replicate 20 (.idle mem) ++
    [{ idle mem with key := some 97 }, { idle mem with msgs := [.free 0x40 (by decide)] },
      .idle mem, .idle mem, .idle mem]

/-- A static value that is set to one of the first entry. -/
def CfgEntry.Copies (en : CfgEntry) : Prop :=
  en.ptrtgt = none ∧ en.dynval = .addr ∧ en.cfgRef = some 0 ∧ en.type.num = some (.int false 8)

instance (en : CfgEntry) : Decidable en.Copies := inferInstanceAs (Decidable (_ ∧ _))

end UgTrain
