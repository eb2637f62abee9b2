import UgTrain.MainLoop
import UgTrain.Pointwise
import UgTrain.ProcSteps
import UgTrain.RelocCaches

/-!
# What the phases of the main loop keep

`CfgMem.Keeps φ χ ψ`: entries and pointer sections are the same but for what may change at run time,
`φ` of the values of each entry, `χ` of each class and `ψ` of each section are the same, and the
vectors of the classes are the same but for objects that were marked. All phases but those that add
or remove objects keep the vectors of the entries (`step_keeps`); the processing keeps their lengths
(`process_keeps`).
-/

namespace UgTrain

open CLib

/-- The part of an entry that stays as it is while the main loop runs. -/
def CfgEntry.fixed (en : CfgEntry) : CfgEntry :=
  { en with
    addr := 0
    checks := none
    type := { en.type with onStack := false }
    vals := ⟨0, 0, none, false, [], [], []⟩ }

def PtrMemEntry.fixed (pm : PtrMemEntry) : PtrMemEntry :=
  { pm with cfgAct := [], vState := [], vOffs := [] }

/-- The vectors of an entry. -/
def EntryVals.vecs (v : EntryVals) : List Value × List Value × List (Option (List UInt8)) :=
  (v.vOldval, v.vValue, v.vCstr)

/-- The vectors of a section. -/
def PtrMemEntry.vecs (pm : PtrMemEntry) : List PtrState × List Ptr := (pm.vState, pm.vOffs)

def PtrMemEntry.dims (pm : PtrMemEntry) : Nat × Nat := (pm.vState.length, pm.vOffs.length)

/-- The activated entries and the lengths of the vectors of a section. -/
def PtrMemEntry.actDims (pm : PtrMemEntry) : List Nat × Nat × Nat := (pm.cfgAct, pm.dims)

/-- The objects of a class are the same, but some may have been marked. -/
structure DynMemEntry.Keeps (dm dm' : DynMemEntry) : Prop where
  vMaddr : List.Forall₂ (fun a a' => a' = a ∨ a' = 0) dm.vMaddr dm'.vMaddr
  vMsize : List.Forall₂ (fun n n' => n' = n ∨ n' = 0) dm.vMsize dm'.vMsize
  numFreed : dm.numFreed ≤ dm.vMaddr.count 0 → dm'.numFreed ≤ dm'.vMaddr.count 0

structure CfgMem.Keeps {β γ δ : Type} (φ : EntryVals → β) (χ : DynMemEntry → δ)
    (ψ : PtrMemEntry → γ) (cfg cfg' : CfgMem) : Prop where
  entries : cfg'.entries.map (fun en => (en.fixed, φ en.vals)) =
    cfg.entries.map (fun en => (en.fixed, φ en.vals))
  dynmems : List.Forall₂ DynMemEntry.Keeps cfg.dynmems cfg'.dynmems
  ptrmems : cfg'.ptrmems.map (fun pm => (pm.fixed, ψ pm)) =
    cfg.ptrmems.map (fun pm => (pm.fixed, ψ pm))
  classes : cfg'.dynmems.map χ = cfg.dynmems.map χ

/-! ## Classes -/

section Classes

variable {dm dm' dm'' : DynMemEntry} {dynmems : List DynMemEntry}

theorem orZero_trans (a b c : BitVec 64) (h : b = a ∨ b = 0) (h' : c = b ∨ c = 0) :
    c = a ∨ c = 0 := by
  rcases h' with rfl | rfl
  · exact h
  · exact .inr rfl

theorem forall₂_orZero_refl (l : List (BitVec 64)) :
    List.Forall₂ (fun a a' => a' = a ∨ a' = 0) l l :=
  Pointwise.refl (fun _ => .inl rfl) l

theorem forall₂_orZero_set (l : List (BitVec 64)) (i : Nat) :
    List.Forall₂ (fun a a' => a' = a ∨ a' = 0) l (l.set i 0) :=
  Pointwise.set (fun _ => .inl rfl) fun _ _ => .inr rfl

@[refl] theorem DynMemEntry.Keeps.refl (dm : DynMemEntry) : dm.Keeps dm :=
  ⟨forall₂_orZero_refl _, forall₂_orZero_refl _, id⟩

theorem DynMemEntry.Keeps.trans (h : dm.Keeps dm') (h' : dm'.Keeps dm'') : dm.Keeps dm'' :=
  ⟨Pointwise.trans orZero_trans h.vMaddr h'.vMaddr,
    Pointwise.trans orZero_trans h.vMsize h'.vMsize, fun hn => h'.numFreed (h.numFreed hn)⟩

/-- A class with the same vectors. -/
theorem DynMemEntry.Keeps.of_eq (h₁ : dm'.vMaddr = dm.vMaddr) (h₂ : dm'.vMsize = dm.vMsize)
    (h₃ : dm'.numFreed = dm.numFreed) : dm.Keeps dm' :=
  ⟨h₁ ▸ forall₂_orZero_refl _, h₂ ▸ forall₂_orZero_refl _, fun hn => by rw [h₃, h₁]; exact hn⟩

theorem count_set_zero_le (l : List Ptr) (i : Nat) : l.count 0 ≤ (l.set i 0).count 0 := by
  induction l generalizing i with
  | nil => simp
  | cons a l ih =>
    cases i with
    | zero =>
      rw [List.set_cons_zero, List.count_cons_self, List.count_cons]
      split <;> omega
    | succ i =>
      rw [List.set_cons_succ, List.count_cons, List.count_cons]
      exact Nat.add_le_add_right (ih i) _

theorem count_set_zero {l : List Ptr} {i : Nat} {a : Ptr} (hi : l[i]? = some a) (h0 : a ≠ 0) :
    (l.set i 0).count 0 = l.count 0 + 1 := by
  induction l generalizing i with
  | nil => simp at hi
  | cons b l ih =>
    cases i with
    | zero =>
      obtain rfl : b = a := by simpa using hi
      rw [List.set_cons_zero, List.count_cons_self, List.count_cons_of_ne h0]
    | succ i =>
      rw [List.set_cons_succ, List.count_cons, List.count_cons, ih (by simpa using hi)]
      omega

theorem keeps_kickObj (dm : DynMemEntry) (i : Nat) : dm.Keeps (dm.kickObj i) :=
  ⟨forall₂_orZero_set _ _, forall₂_orZero_refl _, fun hn => hn.trans (count_set_zero_le _ _)⟩

theorem keeps_clearObj {i : Nat} {a : Ptr} (hi : dm.vMaddr[i]? = some a) (h0 : a ≠ 0) :
    dm.Keeps (dm.clearObj i) := by
  refine ⟨forall₂_orZero_set _ _, forall₂_orZero_set _ _, fun hn => ?_⟩
  have hc := count_set_zero hi h0
  show dm.numFreed + 1 ≤ (dm.vMaddr.set i 0).count 0
  omega

theorem keeps_refl (l : List DynMemEntry) : List.Forall₂ DynMemEntry.Keeps l l :=
  Pointwise.refl .refl l

theorem keeps_set {d : Nat} (hd : dynmems[d]? = some dm) (h : dm.Keeps dm') :
    List.Forall₂ DynMemEntry.Keeps dynmems (dynmems.set d dm') := by
  refine Pointwise.set .refl fun x hx => ?_
  cases hd.symm.trans hx
  exact h

end Classes

/-! ## Configs -/

section Configs

variable {β γ δ : Type} {φ : EntryVals → β} {χ : DynMemEntry → δ} {ψ : PtrMemEntry → γ}
  {cfg cfg' cfg'' : CfgMem}

@[refl] theorem CfgMem.Keeps.refl (cfg : CfgMem) : cfg.Keeps φ χ ψ cfg :=
  ⟨rfl, keeps_refl _, rfl, rfl⟩

theorem CfgMem.Keeps.trans (h : cfg.Keeps φ χ ψ cfg') (h' : cfg'.Keeps φ χ ψ cfg'') :
    cfg.Keeps φ χ ψ cfg'' :=
  ⟨h'.entries.trans h.entries, Pointwise.trans (fun _ _ _ => .trans) h.dynmems h'.dynmems,
    h'.ptrmems.trans h.ptrmems, h'.classes.trans h.classes⟩

/-- Only classes have changed. -/
theorem CfgMem.Keeps.of_dynmems {dynmems : List DynMemEntry}
    (h : List.Forall₂ DynMemEntry.Keeps cfg.dynmems dynmems)
    (hχ : dynmems.map χ = cfg.dynmems.map χ) :
    cfg.Keeps φ χ ψ { cfg with dynmems := dynmems } :=
  ⟨rfl, h, rfl, hχ⟩

/-- Only entries have changed. -/
theorem CfgMem.Keeps.of_entries {entries : List CfgEntry}
    (h : entries.map (fun en => (en.fixed, φ en.vals)) =
      cfg.entries.map (fun en => (en.fixed, φ en.vals))) :
    cfg.Keeps φ χ ψ { cfg with entries := entries } :=
  ⟨h, keeps_refl _, rfl, rfl⟩

theorem CfgMem.Keeps.mono {β' γ' δ' : Type} {φ' : EntryVals → β'} {χ' : DynMemEntry → δ'}
    {ψ' : PtrMemEntry → γ'} (f : β → β') (k : δ → δ') (g : γ → γ') (hf : ∀ v, φ' v = f (φ v))
    (hk : ∀ dm, χ' dm = k (χ dm)) (hg : ∀ pm, ψ' pm = g (ψ pm)) (h : cfg.Keeps φ χ ψ cfg') :
    cfg.Keeps φ' χ' ψ' cfg' := by
  refine ⟨?_, h.dynmems, ?_, ?_⟩
  · have := congrArg (List.map fun x => (x.1, f x.2)) h.entries
    simpa only [List.map_map, Function.comp_def, ← hf] using this
  · have := congrArg (List.map fun x => (x.1, g x.2)) h.ptrmems
    simpa only [List.map_map, Function.comp_def, ← hg] using this
  · have := congrArg (List.map k) h.classes
    simpa only [List.map_map, Function.comp_def, ← hk] using this

/-- The lengths of all vectors are the same. -/
abbrev CfgMem.KeepsDims (cfg cfg' : CfgMem) : Prop :=
  cfg.Keeps EntryVals.dims (fun _ => ()) PtrMemEntry.dims cfg'

theorem CfgMem.Keeps.toDims (f : β → Nat × Nat × Nat) (g : γ → Nat × Nat)
    (hf : ∀ v, EntryVals.dims v = f (φ v)) (hg : ∀ pm, PtrMemEntry.dims pm = g (ψ pm))
    (h : cfg.Keeps φ χ ψ cfg') : cfg.KeepsDims cfg' :=
  h.mono f (fun _ => ()) g hf (fun _ => rfl) hg

theorem CfgMem.Keeps.entry (h : cfg.Keeps φ χ ψ cfg') {e : Nat} {en : CfgEntry}
    (he : cfg'.entries[e]? = some en) :
    ∃ en', cfg.entries[e]? = some en' ∧ en'.fixed = en.fixed ∧ φ en'.vals = φ en.vals := by
  obtain ⟨en', he', heq⟩ := Pointwise.getElem?_of_map_eq h.entries.symm he
  exact ⟨en', he', congrArg (·.1) heq, congrArg (·.2) heq⟩

theorem CfgMem.Keeps.ptrmem (h : cfg.Keeps φ χ ψ cfg') {p : Nat} {pm : PtrMemEntry}
    (hp : cfg'.ptrmems[p]? = some pm) :
    ∃ pm', cfg.ptrmems[p]? = some pm' ∧ pm'.fixed = pm.fixed ∧ ψ pm' = ψ pm := by
  obtain ⟨pm', hp', heq⟩ := Pointwise.getElem?_of_map_eq h.ptrmems.symm hp
  exact ⟨pm', hp', congrArg (·.1) heq, congrArg (·.2) heq⟩

theorem CfgMem.Keeps.dynmem (h : cfg.Keeps φ χ ψ cfg') {d : Nat} {dm : DynMemEntry}
    (hd : cfg'.dynmems[d]? = some dm) : ∃ dm', cfg.dynmems[d]? = some dm' ∧ dm'.Keeps dm :=
  Pointwise.getElem? h.dynmems hd

end Configs

/-! ## Relocation -/

section Reloc

variable {p : Pass} {cfg cfg' : List CfgEntry} {caches caches' : Caches} {opt opt' : Options}

/-- A pass that changes nothing of a type but whether it is on the stack. -/
def Pass.KeepsFixed (p : Pass) : Prop := ∀ enType type m, p enType type = .ok (some m) →
  { m.type with onStack := false } = { type with onStack := false }

theorem relocItems_fixed (hp : p.KeepsFixed) {en en' : CfgEntry}
    (h : p.relocItems en caches = .ok (en', caches')) :
    en'.fixed = en.fixed ∧ en'.vals = en.vals := by
  obtain ⟨⟨en₁, caches₁⟩, h₁, h⟩ := Run.bind_eq_ok.mp h
  have hen : en₁.fixed = en.fixed ∧ en₁.vals = en.vals := by
    obtain ⟨o, ho, h₁⟩ := Run.bind_eq_ok.mp h₁
    cases o with
    | none =>
      cases h₁
      exact ⟨rfl, rfl⟩
    | some m =>
      obtain ⟨caches₂, -, h₁⟩ := Run.bind_eq_ok.mp h₁
      cases h₁
      refine ⟨?_, rfl⟩
      simp only [CfgEntry.fixed, hp _ _ _ ho]
  cases hc : en.checks with
  | none =>
    simp only [hc] at h
    cases h
    exact hen
  | some chks =>
    simp only [hc] at h
    obtain ⟨⟨chks', caches₂⟩, -, h⟩ := Run.bind_eq_ok.mp h
    cases h
    exact hen

theorem relocEntries_fixed (hp : p.KeepsFixed)
    (h : p.relocEntries cfg caches = .ok (cfg', caches')) :
    cfg'.map (fun en => (en.fixed, en.vals)) = cfg.map (fun en => (en.fixed, en.vals)) := by
  induction cfg generalizing caches cfg' caches' with
  | nil =>
    cases h
    rfl
  | cons en cfg ih =>
    rw [Pass.relocEntries] at h
    split at h
    · obtain ⟨⟨en₁, caches₁⟩, h₁, h⟩ := Run.bind_eq_ok.mp h
      obtain ⟨⟨cfg₁, caches₂⟩, h₂, h⟩ := Run.bind_eq_ok.mp h
      cases h
      obtain ⟨hfixed, hvals⟩ := relocItems_fixed hp h₁
      rw [List.map_cons, List.map_cons, ih h₂, hfixed, hvals]
    · rw [Run.ok_bind] at h
      obtain ⟨⟨cfg₁, caches₂⟩, h₂, h⟩ := Run.bind_eq_ok.mp h
      cases h
      rw [List.map_cons, List.map_cons, ih h₂]

theorem stackPass_keepsFixed (stackEnd : Ptr) : (stackPass stackEnd).KeepsFixed := by
  intro enType type m h
  simp only [stackPass, Except.ok.injEq] at h
  split at h <;> cases h
  rfl

theorem picPass_keepsFixed (libs : List LibEntry) : (picPass libs).KeepsFixed := by
  intro enType type m h
  unfold picPass at h
  split at h
  · cases h
  · split at h <;> cases h
    rfl

theorem processStackEnd_keeps (h : processStackEnd opt = .ok opt') :
    opt.toCfgMem.Keeps id DynMemEntry.cfgAct id opt'.toCfgMem := by
  unfold processStackEnd at h
  split at h
  · obtain ⟨⟨entries, caches⟩, h₁, h⟩ := Run.bind_eq_ok.mp h
    cases h
    exact .of_entries (relocEntries_fixed (stackPass_keepsFixed _) h₁)
  · cases h
    exact .refl _

theorem handleStatmemPic_keeps {late : Bool} (h : handleStatmemPic opt late = .ok opt') :
    opt.toCfgMem.Keeps id DynMemEntry.cfgAct id opt'.toCfgMem := by
  obtain ⟨⟨entries, caches⟩, h₁, h⟩ := Run.bind_eq_ok.mp h
  cases h
  exact .of_entries (relocEntries_fixed (picPass_keepsFixed _) h₁)

theorem handleLatePic_keeps {rlist : List Region} {l : Nat}
    (h : Trainer.handleLatePic rlist opt l = .ok opt') :
    opt.toCfgMem.Keeps id DynMemEntry.cfgAct id opt'.toCfgMem := by
  unfold Trainer.handleLatePic at h
  split at h
  · cases h
    exact .refl _
  · split at h
    · cases h
      exact .refl _
    · have := handleStatmemPic_keeps h
      exact this

theorem latePic_keeps {rlist : List Region} {ls : List Nat}
    (h : ls.foldlM (Trainer.handleLatePic rlist) opt = .ok opt') :
    opt.toCfgMem.Keeps id DynMemEntry.cfgAct id opt'.toCfgMem := by
  induction ls generalizing opt with
  | nil =>
    cases h
    exact .refl _
  | cons l ls ih =>
    obtain ⟨opt₁, h₁, h⟩ := Run.bind_eq_ok.mp h
    exact (handleLatePic_keeps h₁).trans (ih h)

end Reloc

/-! ## Messages -/

section Messages

variable {s s' : Trainer}

theorem clearObjs_keeps (cfg : List CfgEntry) {memAddr : Ptr} (h0 : memAddr ≠ 0)
    (dynmems : List DynMemEntry) :
    List.Forall₂ DynMemEntry.Keeps dynmems (clearObjs cfg memAddr dynmems) ∧
      (clearObjs cfg memAddr dynmems).map (·.cfgAct) = dynmems.map (·.cfgAct) := by
  unfold clearObjs
  split
  · rename_i d dm hd
    obtain ⟨hdm, -⟩ := findDynmem_eq_some hd
    split
    · rename_i idx hidx
      obtain ⟨hlt, hp, -⟩ := List.findIdx?_eq_some_iff_getElem.mp hidx
      refine ⟨keeps_set hdm (keeps_clearObj (a := memAddr) ?_ h0), Pointwise.map_set_of hdm rfl⟩
      rw [List.getElem?_eq_getElem hlt]
      simpa using hp
    · exact ⟨keeps_refl _, rfl⟩
  · exact ⟨keeps_refl _, rfl⟩

theorem clearDynmemAddr_keeps {cfg cfg' : CfgMem} {mq mq' : MQueue} {memAddr : Ptr}
    (h0 : memAddr ≠ 0) (h : clearDynmemAddr cfg mq memAddr = .ok (cfg', mq')) :
    cfg.Keeps id DynMemEntry.cfgAct id cfg' := by
  obtain ⟨⟨removed, mq₁⟩, -, h⟩ := Run.bind_eq_ok.mp h
  dsimp only at h
  split at h <;> cases h
  · exact .refl _
  · obtain ⟨hk, hact⟩ := clearObjs_keeps cfg.entries h0 cfg.dynmems
    exact .of_dynmems hk hact

theorem getLibLoadAddr_keeps (rlist : List Region) (libName : Str) (cfg : CfgMem) :
    cfg.Keeps id DynMemEntry.cfgAct id (getLibLoadAddr rlist libName cfg).1 := by
  have hfold : ∀ (libStart : Ptr) (es : List CfgEntry) (st : LoadState),
      List.Forall₂ DynMemEntry.Keeps st.dynmems
          (es.foldl (LoadState.step libName libStart) st).dynmems ∧
        (es.foldl (LoadState.step libName libStart) st).dynmems.map (·.cfgAct) =
          st.dynmems.map (·.cfgAct) := by
    intro libStart es
    induction es with
    | nil => exact fun st => ⟨keeps_refl _, rfl⟩
    | cons en es ih =>
      intro st
      have hstep : List.Forall₂ DynMemEntry.Keeps st.dynmems
            (LoadState.step libName libStart st en).dynmems ∧
          (LoadState.step libName libStart st en).dynmems.map (·.cfgAct) =
            st.dynmems.map (·.cfgAct) := by
        unfold LoadState.step
        split
        · exact ⟨keeps_refl _, rfl⟩
        · rename_i d dm hd
          obtain ⟨d', -, hdm⟩ := Option.bind_eq_some_iff.mp hd
          obtain ⟨dm', hdm, heq⟩ := Option.map_eq_some_iff.mp hdm
          cases heq
          split
          · exact ⟨keeps_refl _, rfl⟩
          · exact ⟨keeps_set hdm (.of_eq rfl rfl rfl), Pointwise.map_set_of hdm rfl⟩
      obtain ⟨hk, hact⟩ := ih (LoadState.step libName libStart st en)
      exact ⟨Pointwise.trans (fun _ _ _ => .trans) hstep.1 hk, hact.trans hstep.2⟩
  unfold getLibLoadAddr
  dsimp only
  split
  · exact .refl _
  · obtain ⟨hk, hact⟩ := hfold (findLibBounds rlist libName).1 cfg.entries ⟨cfg.dynmems, none⟩
    exact .of_dynmems hk hact

theorem handleMsg_keeps {msg : FifoMsg} (h : s.handleMsg msg = .ok s') :
    s.opt.toCfgMem.Keeps id DynMemEntry.cfgAct id s'.opt.toCfgMem := by
  cases msg with
  | malloc m behind ppos =>
    obtain ⟨mq, -, h⟩ := Run.bind_eq_ok.mp h
    cases h
    exact .refl _
  | free memAddr h0 =>
    obtain ⟨⟨cfg, mq⟩, h₁, h⟩ := Run.bind_eq_ok.mp h
    cases h
    exact clearDynmemAddr_keeps h0 h₁
  | lib libName rlist =>
    cases h
    exact getLibLoadAddr_keeps _ _ _
  | stackEnd addr =>
    simp only [Trainer.handleMsg] at h
    split at h
    · cases h
      exact .refl _
    · split at h
      · obtain ⟨opt, h₁, h⟩ := Run.bind_eq_ok.mp h
        cases h
        have := processStackEnd_keeps h₁
        exact this
      · cases h
        exact .refl _

theorem readFifo_keeps {msgs : List FifoMsg} (h : Trainer.readFifo msgs s = .ok s') :
    s.opt.toCfgMem.Keeps id DynMemEntry.cfgAct id s'.opt.toCfgMem := by
  induction msgs generalizing s with
  | nil =>
    cases h
    exact .refl _
  | cons msg msgs ih =>
    obtain ⟨s₁, h₁, h⟩ := Run.bind_eq_ok.mp h
    refine (handleMsg_keeps h₁).trans ?_
    split at h
    · cases h
      exact .refl _
    · exact ih h

theorem outputDynmemChanges_keeps (s : Trainer) :
    s.opt.toCfgMem.Keeps id DynMemEntry.cfgAct id s.outputDynmemChanges.opt.toCfgMem := by
  refine .of_dynmems (Pointwise.map ?_ _) ?_
  · exact fun _ => .of_eq rfl rfl rfl
  · rw [List.map_map]
    rfl

theorem afterFifo_keeps {msgs : List FifoMsg} {f : Trainer → Trainer}
    (hf : ∀ s : Trainer, s.opt.toCfgMem.Keeps id DynMemEntry.cfgAct id (f s).opt.toCfgMem)
    (h : s.afterFifo msgs f = .ok s') :
    s.opt.toCfgMem.Keeps id DynMemEntry.cfgAct id s'.opt.toCfgMem := by
  unfold Trainer.afterFifo at h
  split at h
  · cases h
    exact hf s
  · obtain ⟨s₁, h₁, h⟩ := Run.bind_eq_ok.mp h
    refine (readFifo_keeps h₁).trans ?_
    cases h
    split
    · exact .refl _
    · exact hf s₁

end Messages

/-! ## Keys, checks and output -/

section Others

variable {s s' : Trainer}

theorem handleHeapChecks_keeps (heap : Ptr × Ptr) :
    s.opt.toCfgMem.Keeps id DynMemEntry.cfgAct id (s.handleHeapChecks heap).opt.toCfgMem := by
  unfold Trainer.handleHeapChecks
  split
  · refine .of_entries ?_
    rw [List.map_map]
    rfl
  · exact .refl _

theorem toggle_keeps (e : Nat) :
    s.opt.toCfgMem.Keeps id (fun _ => ()) PtrMemEntry.vecs (s.toggle e).opt.toCfgMem := by
  unfold Trainer.toggle
  split
  · exact .refl _
  · split
    · refine ⟨rfl, keeps_refl _, ?_, rfl⟩
      refine Pointwise.map_modify_eq ?_ _ _
      exact fun _ => rfl
    · rename_i en _ _ _
      cases hd : en.dynmem with
      | none => exact .refl _
      | some d =>
        refine .of_dynmems (Pointwise.modify .refl ?_) ?_
        · exact fun _ _ => .of_eq rfl rfl rfl
        · refine Pointwise.map_modify_eq ?_ _ _
          exact fun _ => rfl

theorem handleInputChar_keeps (ch : Nat) :
    s.opt.toCfgMem.Keeps id (fun _ => ()) PtrMemEntry.vecs (s.handleInputChar ch).opt.toCfgMem := by
  have hfold : ∀ (l : List Nat) (s : Trainer),
      s.opt.toCfgMem.Keeps id (fun _ => ()) PtrMemEntry.vecs (l.foldl Trainer.toggle s).opt.toCfgMem := by
    intro l
    induction l with
    | nil => exact fun s => .refl _
    | cons e l ih => exact fun s => (toggle_keeps e).trans (ih _)
  unfold Trainer.handleInputChar
  split
  · exact .refl _
  · split
    · exact .refl _
    · split
      · exact .refl _
      · exact hfold _ _

theorem display_keeps {e i : Nat} (h : s.display e i = .ok s') :
    s.opt.toCfgMem.Keeps EntryVals.vecs DynMemEntry.cfgAct id s'.opt.toCfgMem := by
  unfold Trainer.display at h
  split at h
  · cases h
  · split at h <;> cases h
    refine .of_entries ?_
    refine Pointwise.map_modify_eq ?_ _ _
    exact fun _ => rfl

theorem displays_keeps {l : List Nat} {i : Nat}
    (h : l.foldlM (fun (s : Trainer) e => s.display e i) s = .ok s') :
    s.opt.toCfgMem.Keeps EntryVals.vecs DynMemEntry.cfgAct id s'.opt.toCfgMem := by
  induction l generalizing s with
  | nil =>
    cases h
    exact .refl _
  | cons e l ih =>
    obtain ⟨s₁, h₁, h⟩ := Run.bind_eq_ok.mp h
    exact (display_keeps h₁).trans (ih h)

theorem outputPtrmemValues_keeps {p : Nat} (h : s.outputPtrmemValues p = .ok s') :
    s.opt.toCfgMem.Keeps EntryVals.vecs DynMemEntry.cfgAct id s'.opt.toCfgMem := by
  unfold Trainer.outputPtrmemValues at h
  split at h
  · cases h
  · dsimp only at h
    split at h
    · cases h
    · split at h
      · cases h
        exact .refl _
      · split at h
        · cases h
        · cases h
          exact .refl _
        · split at h
          · exact displays_keeps h
          · cases h
            exact .refl _

theorem outputMemValue_keeps {e : Nat} (h : s.outputMemValue e = .ok s') :
    s.opt.toCfgMem.Keeps EntryVals.vecs DynMemEntry.cfgAct id s'.opt.toCfgMem := by
  unfold Trainer.outputMemValue at h
  split at h
  · cases h
  · rename_i en he
    dsimp only at h
    split at h
    · split at h
      · cases h
        exact .refl _
      · obtain ⟨s₁, h₁, h⟩ := Run.bind_eq_ok.mp h
        have hd := display_keeps h₁
        split at h
        · cases h
          exact hd
        · exact .trans hd (outputPtrmemValues_keeps h)
    · split at h
      · cases h
        exact .refl _
      · -- the values behind a pointer, or nothing
        repeat' split at h
        all_goals first
          | exact outputPtrmemValues_keeps h
          | cases h; exact .refl _

theorem outputMemValues_keeps {printed : Nat} (h : s.outputMemValues printed = .ok s') :
    s.opt.toCfgMem.Keeps EntryVals.vecs DynMemEntry.cfgAct id s'.opt.toCfgMem := by
  unfold Trainer.outputMemValues at h
  generalize s.cfgAct.take printed = l at h
  induction l generalizing s with
  | nil =>
    cases h
    exact .refl _
  | cons e l ih =>
    obtain ⟨s₁, h₁, h⟩ := Run.bind_eq_ok.mp h
    exact (outputMemValue_keeps h₁).trans (ih h)

end Others

/-! ## The processing -/

section Processing

variable {C : ProcEvent → Prop} {s s' : ProcState}

theorem keeps_of_same (h : s.opt.Same s'.opt)
    (hd : List.Forall₂ DynMemEntry.Keeps s.opt.dynmems s'.opt.dynmems) :
    s.opt.toCfgMem.Keeps EntryVals.dims DynMemEntry.cfgAct PtrMemEntry.actDims s'.opt.toCfgMem := by
  refine ⟨?_, hd, ?_, ?_⟩
  · have := congrArg (List.map fun x : CfgEntry × (Nat × Nat × Nat) => (x.1.fixed, x.2)) h.entries
    rwa [List.map_map, List.map_map] at this
  · have := congrArg (List.map fun x : PtrMemEntry × Nat × Nat =>
      (x.1.fixed, x.1.cfgAct, x.2)) h.ptrmems
    rwa [List.map_map, List.map_map] at this
  · have := congrArg (List.map fun x : DynMemEntry × Nat => x.1.cfgAct) h.dynmems
    rwa [List.map_map, List.map_map] at this

theorem Prim.keeps (h : Prim C s s') :
    s.opt.toCfgMem.Keeps EntryVals.dims DynMemEntry.cfgAct PtrMemEntry.actDims s'.opt.toCfgMem := by
  refine keeps_of_same h.same ?_
  cases h with
  | mem | read | store | pointer | move | settle => exact keeps_refl _
  | objIdx =>
    refine Pointwise.modify .refl ?_
    exact fun _ _ => .of_eq rfl rfl rfl
  | kick =>
    refine Pointwise.modify .refl ?_
    exact fun _ _ => keeps_kickObj _ _

theorem Steps.keeps (h : Steps C s s') :
    s.opt.toCfgMem.Keeps EntryVals.dims DynMemEntry.cfgAct PtrMemEntry.actDims s'.opt.toCfgMem := by
  induction h with
  | refl => exact .refl _
  | tail _ hp ih => exact ih.trans hp.keeps

/-- **A cycle** keeps the lengths of all vectors, and may mark objects. -/
theorem process_keeps {chunk : Nat} {cfgAct : List Nat}
    (h : processActCfg chunk cfgAct s = .ok s') :
    s.opt.toCfgMem.Keeps EntryVals.dims DynMemEntry.cfgAct PtrMemEntry.actDims s'.opt.toCfgMem :=
  (processActCfg_steps h).keeps

end Processing

end UgTrain
