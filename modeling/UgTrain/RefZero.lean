import UgTrain.Freeze

/-!
# References without a value

A reference that gives no value leaves 0 as the wish value, and a wish value of 0 from a reference is
never stored. But the 0 is looked for after the constant of the entry was added: a reference to the
number 0 with a constant is stored like any other (`refZero_iff`).
-/

namespace UgTrain

open CLib

section RefZero

variable (chunk : Nat) (s : ProcState) (e : Nat) (en : CfgEntry) (cfgRef : Nat) (memOffs : Ptr)
  (slot : Option Nat)

/-- The reference gives the value `v`, whose number is 0 in the type of the referenced entry. -/
def ProcState.GivesZero (v : Value) : Prop :=
  handleCfgRef (s.afterRead e en slot).opt cfgRef = .ok (some v) ∧
    ∃ ref, s.opt.entries[cfgRef]? = some ref ∧ Value.toInt ref.type.isSigned ref.type.size v = 0

/-- The referenced value is not available, or it is 0. -/
def ProcState.RefZero : Prop :=
  handleCfgRef (s.afterRead e en slot).opt cfgRef = .ok none ∨ ∃ v, s.GivesZero e en cfgRef slot v

/-- The number 0 of the reference gets through: with the constant it is no 0 in the entry's type, the
own comparison of the entry holds, and so do the lines of its checks. -/
def ProcState.ZeroPasses : Prop :=
  (∃ v, s.GivesZero e en cfgRef slot v ∧ ¬ en.type.Compares (v + en.cfgRefAdd) 0 .eq ∧
    en.type.Compares s.buf (v + en.cfgRefAdd) en.check) ∧
  (s.afterWish e en memOffs slot).RefsInRange chunk (s.opt.dynmem? en.dynmem) memOffs s.junk
    (en.checks.getD []) ∧
  (s.afterWish e en memOffs slot).EachLine chunk (s.opt.dynmem? en.dynmem) memOffs
    ((s.afterWish e en memOffs slot).LinePasses chunk (s.opt.dynmem? en.dynmem) memOffs) s.junk
    (en.checks.getD [])

end RefZero

section Decide

variable {chunk : Nat} {s s' : ProcState} {e : Nat} {en ref : CfgEntry} {cfgRef : Nat}
  {memOffs : Ptr} {slot : Option Nat} {v : Value}

/-- What is left of the entry's own part where the reference gives a value. -/
theorem wants_of_ref (h : s.FreezeReady chunk e en memOffs slot) (hd : en.dynval = .addr)
    (hr : en.cfgRef = some cfgRef)
    (hv : handleCfgRef (s.afterRead e en slot).opt cfgRef = .ok (some v)) :
    s.Wants e en memOffs slot ↔ ¬ en.type.Compares (v + en.cfgRefAdd) 0 .eq ∧
      en.type.Compares s.buf (v + en.cfgRefAdd) en.check := by
  have hle : en.type.size ≤ 64 := h.int.size_le
  have hwish : s.wish e en memOffs slot =
      Value.store en.type.size ((en.vals.wish? slot).getD 0) (v + en.cfgRefAdd) := by
    simp [ProcState.wish, hd, hr, hv, Except.toOption]
  unfold ProcState.Wants
  rw [hwish, compares_store_right (le_refl _) hle, compares_store (le_refl _) hle]
  simp [hd, hr, and_comm]

/-- Without a value the entry wants nothing. -/
theorem not_wants_of_none (h : s.FreezeReady chunk e en memOffs slot) (hd : en.dynval = .addr)
    (hr : en.cfgRef = some cfgRef)
    (hv : handleCfgRef (s.afterRead e en slot).opt cfgRef = .ok none) :
    ¬ s.Wants e en memOffs slot := by
  have hwish : s.wish e en memOffs slot =
      Value.store en.type.size ((en.vals.wish? slot).getD 0) 0 := by
    simp [ProcState.wish, hd, hr, hv, Except.toOption]
  rintro ⟨-, -, hne⟩
  refine hne (by rw [hr]; rfl) ?_
  rw [hwish, compares_store (le_refl _) h.int.size_le]
  rfl

/-- **A reference without a value or to the number 0 causes no write**, unless the constant of the
entry lets it through. -/
theorem refZero_iff (h : s.FreezeReady chunk e en memOffs slot) (hd : en.dynval = .addr)
    (hr : en.cfgRef = some cfgRef) :
    (∀ s', changeMemory chunk e en memOffs slot s = .ok s' →
        s.RefZero e en cfgRef slot → s.Kept s' e en) ↔
      ¬ s.ZeroPasses chunk e en cfgRef memOffs slot := by
  have hw : en.dynval ≠ .watch := by simp [hd]
  obtain ⟨cstr, heq⟩ := changeMemory_eq h
  rw [heq]
  by_cases href : en.dynval = .addr → ∀ cfgRef, en.cfgRef = some cfgRef →
      (handleCfgRef (s.afterRead e en slot).opt cfgRef).isOk = true
  · rw [handleDynval_wish h hw href, Run.ok_bind]
    dsimp only
    rw [afterWish_eq]
    by_cases hrefs : (s.afterWish e en memOffs slot).RefsInRange chunk
        (s.opt.dynmem? en.dynmem) memOffs s.junk (en.checks.getD [])
    · obtain ⟨s', hs', hstored, hkept⟩ := changeMemVal_decides h hw hrefs
      rw [hs']
      constructor
      · rintro hall ⟨⟨v, hv, hpass⟩, -, hlines⟩
        have hwants := (wants_of_ref h hd hr hv.1).mpr hpass
        exact (hstored ⟨hwants, hlines⟩).not_kept (hall s' rfl (.inr ⟨v, hv⟩))
      · rintro hno _ ⟨⟩ hzero
        refine hkept fun ⟨hwants, hlines⟩ => ?_
        rcases hzero with hnone | ⟨v, hv⟩
        · exact not_wants_of_none h hd hr hnone hwants
        · exact hno ⟨⟨v, hv, (wants_of_ref h hd hr hv.1).mp hwants⟩, hrefs, hlines⟩
    · obtain ⟨err, herr⟩ := (passChecks_checked h).2 hrefs
      have hfault : changeMemVal chunk (.int en.type.isSigned en.type.size) e en
          (Value.store en.type.size ((en.vals.old? slot).getD 0) s.buf)
          (s.wish e en memOffs slot) memOffs slot (s.afterWish e en memOffs slot) =
            .error err := by
        unfold changeMemVal
        rw [if_neg hw, herr]
        rfl
      rw [hfault]
      exact ⟨fun _ hpass => hrefs hpass.2.1, fun _ _ hbad => (nomatch hbad)⟩
  · obtain ⟨err, herr⟩ := handleDynval_fault _ _ _ cstr memOffs _ href
    rw [herr]
    refine ⟨fun _ ⟨⟨v, hv, _⟩, _⟩ => href fun _ r hr' => ?_, fun _ _ hbad => (nomatch hbad)⟩
    rw [hr] at hr'
    cases hr'
    rw [hv.1]
    rfl

/-- In an entry that is not wider than the reference, a constant of 0 lets no 0 through. -/
theorem not_zeroPasses (hr : s.opt.entries[cfgRef]? = some ref)
    (hle : en.type.size ≤ ref.type.size) (hle' : ref.type.size ≤ 64)
    (hadd : en.cfgRefAdd.setWidth en.type.size = 0#_) :
    ¬ s.ZeroPasses chunk e en cfgRef memOffs slot := by
  rintro ⟨⟨v, ⟨-, ref', hr', hzero⟩, hne, -⟩, -, -⟩
  obtain rfl : ref = ref' := Option.some.inj (hr.symm.trans hr')
  have hv : v.setWidth ref.type.size = 0#_ := by
    unfold Value.toInt at hzero
    split at hzero
    · exact BitVec.eq_of_toInt_eq (by simpa using hzero)
    · exact BitVec.eq_of_toNat_eq (Int.ofNat_inj.mp hzero)
  have hv' : v.setWidth en.type.size = 0#_ := by
    have := congrArg (BitVec.setWidth en.type.size) hv
    rw [BitVec.setWidth_setWidth_of_le _ hle] at this
    rw [this]
    exact BitVec.setWidth_zero _ _
  refine hne ?_
  have hsum : (v + en.cfgRefAdd).setWidth en.type.size = (0 : Value).setWidth en.type.size := by
    rw [BitVec.setWidth_add _ _ (by omega), hv', hadd]
    simp
  show Value.toInt _ _ _ = Value.toInt _ _ _
  simp only [Value.toInt, hsum]

end Decide

/-! ## A constant -/

/-- A static value of 32 bits that is 0. -/
def CfgEntry.zeroValue : CfgEntry := { (default : CfgEntry) with
  type := { (default : VType) with size := 32 } }

/-- A wish value that refers to it, with a constant. -/
def CfgEntry.plus (add : BitVec 64) : CfgEntry := { (default : CfgEntry) with
  type := { (default : VType) with size := 32 }
  dynval := .addr
  cfgRef := some 0
  cfgRefAdd := add
  cache := some ⟨.opt, 0⟩
  cacheData := 0
  vals := ⟨0, 0, none, false, [], [], []⟩ }

def ProcState.zeroRef (add : BitVec 64) : ProcState where
  opt :=
    { entries := [.zeroValue, .plus add]
      dynmems := []
      ptrmems := []
      libs := []
      dumps := []
      caches := Function.update (fun _ => []) .opt [⟨0x1000, 0x1000, List.replicate 16 5, false⟩]
      valOnStack := false
      stackEnd := 0
      codeOffs := 0 }
  target := ⟨fun _ => 5, fun _ _ => true, fun _ _ => true⟩
  buf := 0x05050505
  junk := 0
  events := []

theorem zeroRef_ready (add : BitVec 64) :
    (ProcState.zeroRef add).FreezeReady 16 1 (.plus add) 0 none where
  entry := rfl
  int := ⟨rfl, show 32 ∈ [8, 16, 32, 64] by decide⟩
  old := rfl
  value := rfl
  cstr := rfl
  cache := ⟨⟨0x1000, 0x1000, List.replicate 16 5, false⟩, rfl, by decide, by
    rw [VType.bytes_of_usual (show 32 ∈ [8, 16, 32, 64] by decide)]
    simp [CfgEntry.plus]⟩
  lines := fun _ h => (nomatch h)
  object := fun _ h => (nomatch h)
  wishRead := fun _ h => (nomatch h)

theorem refZero_example : ∃ s', changeMemory 16 1 (.plus 0) 0 none (.zeroRef 0) = .ok s' ∧
    (ProcState.zeroRef 0).Kept s' 1 (.plus 0) := by
  obtain ⟨s', hs', -⟩ := Run.exists_ok_of_map (f := fun s => s.valSet? 1) (b := some false)
    (show (changeMemory 16 1 (.plus 0) 0 none (.zeroRef 0)).map _ = _ by decide +kernel)
  have hno : ¬ (ProcState.zeroRef 0).ZeroPasses 16 1 (.plus 0) 0 0 none :=
    not_zeroPasses (show (ProcState.zeroRef 0).opt.entries[0]? = some .zeroValue from rfl) (by decide)
      (by decide) (by decide)
  exact ⟨s', hs', (refZero_iff (zeroRef_ready 0) rfl rfl).mpr hno s' hs'
    (.inr ⟨0, rfl, .zeroValue, rfl, rfl⟩)⟩

/-- `Name+7` where the value of `Name` is 0: 7 is stored. -/
theorem refZero_not : ¬ ∀ (chunk : Nat) (s s' : ProcState) (e : Nat) (en : CfgEntry) (cfgRef : Nat)
    (memOffs : Ptr) (slot : Option Nat), s.FreezeReady chunk e en memOffs slot →
      en.dynval = .addr → en.cfgRef = some cfgRef →
      changeMemory chunk e en memOffs slot s = .ok s' → s.RefZero e en cfgRef slot →
      s.Kept s' e en := by
  intro hall
  obtain ⟨s', hs', hflag⟩ := Run.exists_ok_of_map (f := fun s => s.valSet? 1) (b := some true)
    (show (changeMemory 16 1 (.plus 7) 0 none (.zeroRef 7)).map _ = _ by decide +kernel)
  have hkept := hall 16 (.zeroRef 7) s' 1 (.plus 7) 0 0 none (zeroRef_ready 7) rfl rfl hs'
    (.inr ⟨0, rfl, .zeroValue, rfl, rfl⟩)
  cases hkept.1.symm.trans hflag

end UgTrain
