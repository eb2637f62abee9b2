import UgTrain.ObjRows

/-!
# Tracking in the main loop

The phases of the main loop are what `ObjRun` knows: `free_dynmem`, `process_mallocs` and
`alloc_dynmem`, and a cycle, which kicks the objects that it marks (`markKicked`). The others change
nothing that the tracking looks at (`CfgMem.SameTracks`).

`Trainer.Tracks s live codes`: the queue and the classes hold the objects `live` that were not kicked,
and the classes take allocations from `codes`. Every phase keeps it (`step_tracks`).
-/

namespace UgTrain

open CLib

/-- What the tracking looks at in a class. -/
def DynMemEntry.track (dm : DynMemEntry) :
    (List Ptr × List SizeT) × Ptr × Option GrowEntry × List DynMemEssentials :=
  ((dm.vMaddr, dm.vMsize), dm.codeAddr, dm.grow, dm.consts)

structure CfgMem.SameTracks (cfg cfg' : CfgMem) : Prop where
  dynmems : cfg'.dynmems.map DynMemEntry.track = cfg.dynmems.map DynMemEntry.track
  refs : cfg'.entries.map (·.dynmem) = cfg.entries.map (·.dynmem)

/-- The classes take the same allocations. -/
structure CfgMem.SameRules (cfg cfg' : CfgMem) : Prop where
  accepts : List.Forall₂ (fun dm dm' : DynMemEntry => ∀ c, dm'.accepts c = dm.accepts c)
    cfg.dynmems cfg'.dynmems
  refs : cfg'.entries.map (·.dynmem) = cfg.entries.map (·.dynmem)

/-- The classes take allocations from the code addresses. -/
def CfgMem.Knows (cfg : CfgMem) (codes : List Ptr) : Prop :=
  ∀ c ∈ codes, Accepted cfg.entries cfg.dynmems c

section Rules

variable {cfg cfg' cfg'' : CfgMem} {codes : List Ptr} {dynmems : List DynMemEntry} {d : Nat}
  {dm dm' : DynMemEntry}

theorem CfgMem.SameTracks.refl (cfg : CfgMem) : cfg.SameTracks cfg := ⟨rfl, rfl⟩

theorem CfgMem.SameTracks.trans (h : cfg.SameTracks cfg') (h' : cfg'.SameTracks cfg'') :
    cfg.SameTracks cfg'' :=
  ⟨h'.dynmems.trans h.dynmems, h'.refs.trans h.refs⟩

theorem accepts_of_fields (hc : dm'.codeAddr = dm.codeAddr) (hg : dm'.grow = dm.grow)
    (hk : dm'.consts = dm.consts) (c : Ptr) : dm'.accepts c = dm.accepts c := by
  unfold DynMemEntry.accepts
  rw [hc, hg, hk]

theorem SameObjs.of_track (h : dm'.track = dm.track) : SameObjs dm dm' := by
  have ha : dm'.vMaddr = dm.vMaddr := congrArg (·.1.1) h
  have hs : dm'.vMsize = dm.vMsize := congrArg (·.1.2) h
  refine ⟨fun _ => ?_, fun hal => ?_, accepts_of_fields (congrArg (·.2.1) h) (congrArg (·.2.2.1) h)
    (congrArg (·.2.2.2) h)⟩
  · rw [DynMemEntry.objs, ha, hs]
    rfl
  · rw [DynMemEntry.Aligned, ha, hs]
    exact hal

theorem forall₂_of_map_eq {α β : Type} {f : α → β} {l l' : List α} (h : l'.map f = l.map f) :
    List.Forall₂ (fun x x' => f x' = f x) l l' := by
  refine List.forall₂_iff_get.mpr ⟨by simpa using (congrArg List.length h).symm, fun i hi hi' => ?_⟩
  have := congrArg (·[i]?) h
  simpa [List.getElem?_map, List.getElem?_eq_getElem hi, List.getElem?_eq_getElem hi'] using this

theorem CfgMem.SameTracks.sameObjs (h : cfg.SameTracks cfg') :
    List.Forall₂ SameObjs cfg.dynmems cfg'.dynmems :=
  (forall₂_of_map_eq h.dynmems).imp fun _ _ => .of_track

theorem sameRules_of_sameObjs (h : List.Forall₂ SameObjs cfg.dynmems cfg'.dynmems)
    (hr : cfg'.entries.map (·.dynmem) = cfg.entries.map (·.dynmem)) : cfg.SameRules cfg' :=
  ⟨h.imp fun _ _ hs => hs.accepts, hr⟩

/-- One class is exchanged by one that takes the same allocations. -/
theorem sameRules_set (hd : cfg.dynmems[d]? = some dm) (h : ∀ c, dm'.accepts c = dm.accepts c) :
    cfg.SameRules { cfg with dynmems := cfg.dynmems.set d dm' } := by
  refine ⟨Pointwise.set (fun _ _ => rfl) fun x hx => ?_, rfl⟩
  cases hd.symm.trans hx
  exact h

theorem CfgMem.SameRules.refl (cfg : CfgMem) : cfg.SameRules cfg :=
  ⟨Pointwise.refl (fun _ _ => rfl) _, rfl⟩

theorem CfgMem.SameRules.trans (h : cfg.SameRules cfg') (h' : cfg'.SameRules cfg'') :
    cfg.SameRules cfg'' :=
  ⟨Pointwise.trans (fun _ _ _ h h' c => (h' c).trans (h c)) h.accepts h'.accepts,
    h'.refs.trans h.refs⟩

theorem CfgMem.SameRules.accepted (h : cfg.SameRules cfg') {c : Ptr}
    (hc : Accepted cfg.entries cfg.dynmems c) : Accepted cfg'.entries cfg'.dynmems c := by
  unfold Accepted at hc ⊢
  obtain ⟨d, dm, hr, hd, hacc⟩ := findDynmem_isSome.mp hc
  obtain ⟨dm', hd', hs⟩ := Pointwise.getElem? h.accepts.flip hd
  refine findDynmem_isSome.mpr ⟨d, dm', ?_, hd', by rw [hs]; exact hacc⟩
  unfold Refs at hr ⊢
  rw [h.refs]
  exact hr

theorem CfgMem.Knows.of_sameRules (h : cfg.Knows codes) (hs : cfg.SameRules cfg') :
    cfg'.Knows codes :=
  fun c hc => hs.accepted (h c hc)

theorem sameRules_freeDynmem (cfg : CfgMem) : cfg.SameRules (freeDynmem cfg) := by
  obtain ⟨hr, hs⟩ := freeDynmem_objs cfg
  exact sameRules_of_sameObjs hs hr

theorem sameRules_allocDynmem (cfg : CfgMem) : cfg.SameRules (allocDynmem cfg) := by
  have h := allocDynmem_sameRefs cfg
  exact ⟨by rw [h.dynmems]; exact Pointwise.refl (fun _ _ => rfl) _, h.refs⟩

theorem sameRules_allocDynmemAddr (cfg : CfgMem) (memAddr : Ptr) (memSize : SizeT) (codeAddr : Ptr) :
    cfg.SameRules
      { cfg with dynmems := allocDynmemAddr cfg.entries memAddr memSize codeAddr cfg.dynmems } := by
  unfold allocDynmemAddr
  cases hf : findDynmem cfg.dynmems (·.accepts codeAddr) cfg.entries with
  | none => exact .refl cfg
  | some x => exact sameRules_set (findDynmem_eq_some hf).1 fun _ => rfl

theorem sameRules_clearObjs (cfg : CfgMem) (memAddr : Ptr) :
    cfg.SameRules { cfg with dynmems := clearObjs cfg.entries memAddr cfg.dynmems } := by
  unfold clearObjs
  cases hf : findDynmem cfg.dynmems (fun dm => (findAddrIdx dm.vMaddr memAddr).isSome)
      cfg.entries with
  | none => exact .refl cfg
  | some x =>
    dsimp only
    split
    · exact sameRules_set (findDynmem_eq_some hf).1 fun _ => rfl
    · exact .refl cfg

end Rules

/-! ## Phases that change nothing -/

structure Trainer.Tracks (s : Trainer) (live : List LiveObj) (codes : List Ptr) : Prop where
  inv : ∃ ms, ObjRun.Inv ⟨s.mq, s.opt.toCfgMem, live⟩ ms
  knows : s.opt.Knows codes

section Same

variable {α : Type} {s s' : Trainer} {live : List LiveObj} {codes : List Ptr} {cfg cfg' : CfgMem}
  {mq : MQueue} {ms : List AllocMsg}

theorem ObjRun.Inv.of_sameTracks (h : ObjRun.Inv ⟨mq, cfg, live⟩ ms) (hs : cfg.SameTracks cfg') :
    ObjRun.Inv ⟨mq, cfg', live⟩ ms := by
  have hsame := hs.sameObjs
  have hrules := sameRules_of_sameObjs hsame hs.refs
  have hok := sameObjs_ok hsame h.ok
  refine ⟨h.holds, ?_, h.nodup, h.nonzero, ⟨hok.aligned, fun d dm hd hne => ?_⟩,
    fun m hm => hrules.accepted (h.accepted m hm)⟩
  · have hobjs := h.objs
    rw [← sameObjs_allObjs hsame h.ok.aligned] at hobjs
    exact hobjs
  · have hr := hok.refs d dm hd hne
    unfold Refs at hr ⊢
    rw [hs.refs]
    exact hr

theorem Trainer.Tracks.of_same (h : s.Tracks live codes) (hmq : s'.mq = s.mq)
    (hs : s.opt.SameTracks s'.opt.toCfgMem) : s'.Tracks live codes := by
  obtain ⟨ms, hinv⟩ := h.inv
  exact ⟨⟨ms, hmq ▸ hinv.of_sameTracks hs⟩,
    h.knows.of_sameRules (sameRules_of_sameObjs hs.sameObjs hs.refs)⟩

theorem CfgMem.Keeps.refs {β γ δ : Type} {φ : EntryVals → β} {χ : DynMemEntry → δ}
    {ψ : PtrMemEntry → γ} (h : cfg.Keeps φ χ ψ cfg') :
    cfg'.entries.map (·.dynmem) = cfg.entries.map (·.dynmem) := by
  have := congrArg (List.map fun x => x.1.dynmem) h.entries
  rwa [List.map_map, List.map_map] at this

/-- Only entries have changed, but not their classes. -/
theorem CfgMem.Keeps.sameTracks {β γ δ : Type} {φ : EntryVals → β} {χ : DynMemEntry → δ}
    {ψ : PtrMemEntry → γ} (h : cfg.Keeps φ χ ψ cfg') (hd : cfg'.dynmems = cfg.dynmems) :
    cfg.SameTracks cfg' :=
  ⟨by rw [hd], h.refs⟩

theorem toggle_track (s : Trainer) (e : Nat) : (s.toggle e).mq = s.mq ∧
    (s.toggle e).opt.dynmems.map DynMemEntry.track = s.opt.dynmems.map DynMemEntry.track := by
  unfold Trainer.toggle
  split
  · exact ⟨rfl, rfl⟩
  · split
    · exact ⟨rfl, rfl⟩
    · rename_i en _ _ _
      refine ⟨rfl, ?_⟩
      cases en.dynmem with
      | none => rfl
      | some d =>
        refine Pointwise.map_modify_eq ?_ _ _
        exact fun _ => rfl

theorem handleInputChar_track (s : Trainer) (ch : Nat) : (s.handleInputChar ch).mq = s.mq ∧
    (s.handleInputChar ch).opt.dynmems.map DynMemEntry.track =
      s.opt.dynmems.map DynMemEntry.track := by
  have hfold : ∀ (l : List Nat) (s : Trainer), (l.foldl Trainer.toggle s).mq = s.mq ∧
      (l.foldl Trainer.toggle s).opt.dynmems.map DynMemEntry.track =
        s.opt.dynmems.map DynMemEntry.track := by
    intro l
    induction l with
    | nil => exact fun s => ⟨rfl, rfl⟩
    | cons e l ih =>
      intro s
      obtain ⟨hmq, hd⟩ := ih (s.toggle e)
      obtain ⟨hmq', hd'⟩ := toggle_track s e
      exact ⟨hmq.trans hmq', hd.trans hd'⟩
  unfold Trainer.handleInputChar
  split
  · exact ⟨rfl, rfl⟩
  · split
    · exact ⟨rfl, rfl⟩
    · split
      · exact ⟨rfl, rfl⟩
      · exact hfold _ _

/-- What the output of one value keeps, all of the output keeps. -/
theorem outputMemValues_same {f : Trainer → α}
    (hdisplay : ∀ (s s' : Trainer) e i, s.display e i = .ok s' → f s' = f s)
    (hpr : ∀ (s : Trainer) p, f { s with prIdx := p } = f s)
    (hlibs : ∀ (s : Trainer) libs, f { s with opt := { s.opt with libs := libs } } = f s)
    {printed : Nat} (h : s.outputMemValues printed = .ok s') : f s' = f s := by
  have hfoldl : ∀ {ι : Type} {g : Trainer → ι → Except Fault Trainer} (l : List ι) {s s' : Trainer},
      (∀ s s' i, g s i = .ok s' → f s' = f s) → l.foldlM g s = .ok s' → f s' = f s := by
    intro ι g l
    induction l with
    | nil =>
      intro s s' _ h
      cases h
      rfl
    | cons i l ih =>
      intro s s' hg h
      obtain ⟨s₁, h₁, h⟩ := Run.bind_eq_ok.mp h
      exact (ih hg h).trans (hg s s₁ i h₁)
  have hptr : ∀ {s s' : Trainer} {p : Nat}, s.outputPtrmemValues p = .ok s' → f s' = f s := by
    intro s s' p h
    unfold Trainer.outputPtrmemValues at h
    split at h
    · cases h
    · dsimp only at h
      split at h
      · cases h
      · split at h
        · cases h
          rfl
        · split at h
          · cases h
          · cases h
            rfl
          · split at h
            · exact hfoldl _ (fun s s' e => hdisplay s s' e _) h
            · cases h
              rfl
  refine hfoldl _ (fun s s' e h => ?_) h
  unfold Trainer.outputMemValue at h
  split at h
  · cases h
  · dsimp only at h
    split at h
    · split at h
      · cases h
        rfl
      · obtain ⟨s₁, h₁, h⟩ := Run.bind_eq_ok.mp h
        have hd := (hdisplay _ s₁ e _ h₁).trans (hpr s _)
        split at h
        · cases h
          exact hd
        · exact (hptr h).trans hd
    · split at h
      · cases h
        rfl
      · repeat' split at h
        all_goals first
          | exact hptr h
          | cases h; exact hlibs _ _

end Same

/-! ## Cycles -/

/-- The objects that a cycle marks are kicked. -/
def markKicked (cfg cfg' : CfgMem) (live : List LiveObj) : List LiveObj :=
  live.map fun o =>
    if o.memAddr ∈ cfg.addrs ∧ o.memAddr ∉ cfg'.addrs then { o with kicked := true } else o

section Cycles

variable {cfg cfg' : CfgMem} {live : List LiveObj} {mq : MQueue} {ms : List AllocMsg}
  {dm dm' : DynMemEntry}

/-- What remains of objects with different addresses are those whose address remains. -/
theorem eq_filter_of_sublist {l l' : List (Ptr × SizeT)} (h : l'.Sublist l)
    (hn : (l.map (·.1)).Nodup) : l' = l.filter (·.1 ∈ l'.map (·.1)) := by
  induction h with
  | slnil => rfl
  | @cons l₁ l₂ x hsub ih =>
    obtain ⟨hx, hn⟩ := List.nodup_cons.mp hn
    have hno : x.1 ∉ l₁.map (·.1) := fun hm => hx ((hsub.map _).subset hm)
    rw [List.filter_cons_of_neg (by simpa using hno)]
    exact ih hn
  | @cons_cons l₁ l₂ x hsub ih =>
    obtain ⟨hx, hn⟩ := List.nodup_cons.mp hn
    rw [List.filter_cons_of_pos (by simp)]
    refine congrArg (x :: ·) ((ih hn).trans (List.filter_congr fun y hy => ?_))
    have hmem : y.1 ∈ l₂.map (·.1) := List.mem_map_of_mem hy
    have hne : y.1 ≠ x.1 := fun heq => hx (show x.1 ∈ _ from heq ▸ hmem)
    simp [hne]

/-- Objects are marked, and keep their sizes. -/
structure DynMemEntry.Marks (dm dm' : DynMemEntry) : Prop where
  vMaddr : List.Forall₂ (fun a a' => a' = a ∨ a' = 0) dm.vMaddr dm'.vMaddr
  vMsize : dm'.vMsize = dm.vMsize
  accepts : ∀ c, dm'.accepts c = dm.accepts c

theorem DynMemEntry.Marks.sublist (h : dm.Marks dm') : dm'.objs.Sublist dm.objs := by
  have hm := h.vMaddr
  unfold DynMemEntry.objs
  rw [h.vMsize]
  generalize dm.vMsize = svec
  generalize dm.vMaddr = mvec, dm'.vMaddr = mvec' at hm ⊢
  induction hm generalizing svec with
  | nil => exact .refl _
  | @cons a a' _ _ haa' _ ih =>
    cases svec with
    | nil => exact .refl _
    | cons size svec =>
      rw [List.zip_cons_cons, List.zip_cons_cons]
      rcases haa' with rfl | rfl
      · by_cases h0 : a' = 0
        · rw [List.filter_cons_of_neg (by simpa using h0), List.filter_cons_of_neg (by simpa using h0)]
          exact ih svec
        · rw [List.filter_cons_of_pos (by simpa using h0), List.filter_cons_of_pos (by simpa using h0)]
          exact (ih svec).cons_cons _
      · rw [List.filter_cons_of_neg (by simp), List.filter_cons]
        split
        · exact (ih svec).cons _
        · exact ih svec

theorem DynMemEntry.Marks.aligned (h : dm.Marks dm') (ha : dm.Aligned) : dm'.Aligned := by
  rw [DynMemEntry.Aligned, h.vMsize, ← h.vMaddr.length_eq]
  exact ha

theorem sublist_allObjs {dynmems dynmems' : List DynMemEntry}
    (h : List.Forall₂ DynMemEntry.Marks dynmems dynmems') :
    (allObjs dynmems').Sublist (allObjs dynmems) := by
  induction h with
  | nil => exact .refl _
  | cons hm _ ih => exact hm.sublist.append ih

/-- A cycle marks objects. -/
theorem process_marks {chunk : Nat} {cfgAct : List Nat} {s s' : ProcState}
    (h : processActCfg chunk cfgAct s = .ok s') :
    List.Forall₂ DynMemEntry.Marks s.opt.dynmems s'.opt.dynmems := by
  have hsteps := processActCfg_steps h
  refine List.forall₂_iff_get.mpr ⟨hsteps.keeps.dynmems.length_eq, fun i hi hi' => ?_⟩
  have hd := List.getElem?_eq_getElem hi
  obtain ⟨dm', hd', hshape⟩ := hsteps.same.dynmem hd
  obtain rfl : s'.opt.dynmems[i] = dm' :=
    Option.some.inj ((List.getElem?_eq_getElem hi').symm.trans hd')
  have hfst := congrArg (·.1) hshape
  exact ⟨((List.forall₂_iff_get.mp hsteps.keeps.dynmems).2 i hi hi').vMaddr,
    congrArg (·.vMsize) hfst, accepts_of_fields (congrArg (·.codeAddr) hfst)
      (congrArg (·.grow) hfst) (congrArg (·.consts) hfst)⟩

theorem expected_markKicked (cfg cfg' : CfgMem) (live : List LiveObj) :
    ((markKicked cfg cfg' live).filter (!·.kicked)).map (fun o => (o.memAddr, o.memSize)) =
      ((live.filter (!·.kicked)).map fun o => (o.memAddr, o.memSize)).filter
        fun x => ¬ (x.1 ∈ cfg.addrs ∧ x.1 ∉ cfg'.addrs) := by
  induction live with
  | nil => rfl
  | cons o live ih =>
    unfold markKicked at ih ⊢
    rw [List.map_cons]
    by_cases ho : o.memAddr ∈ cfg.addrs ∧ o.memAddr ∉ cfg'.addrs
    · rw [if_pos ho, List.filter_cons_of_neg (by simp), ih, List.filter_cons]
      split
      · rw [List.map_cons, List.filter_cons_of_neg (by simpa using ho)]
      · rfl
    · rw [if_neg ho, List.filter_cons, List.filter_cons]
      split
      · rw [List.map_cons, List.map_cons, List.filter_cons_of_pos (by simp only [ho, not_false_iff,
          decide_true]), ih]
      · exact ih

theorem map_markKicked (cfg cfg' : CfgMem) (live : List LiveObj) :
    (markKicked cfg cfg' live).map (fun o => (o.memAddr, o.memSize)) =
      live.map fun o => (o.memAddr, o.memSize) := by
  unfold markKicked
  rw [List.map_map]
  refine List.map_congr_left fun o _ => ?_
  simp only [Function.comp]
  split <;> rfl

/-- **A cycle** takes the objects that it marks away from the classes. -/
theorem ObjRun.Inv.of_marks (h : ObjRun.Inv ⟨mq, cfg, live⟩ ms)
    (hm : List.Forall₂ DynMemEntry.Marks cfg.dynmems cfg'.dynmems)
    (hr : cfg'.entries.map (·.dynmem) = cfg.entries.map (·.dynmem)) :
    ObjRun.Inv ⟨mq, cfg', markKicked cfg cfg' live⟩ ms := by
  have hrules : cfg.SameRules cfg' := ⟨hm.imp fun _ _ hs => hs.accepts, hr⟩
  have hal : ∀ dm' ∈ cfg'.dynmems, dm'.Aligned := by
    intro dm' hdm'
    obtain ⟨d, hd⟩ := List.mem_iff_getElem?.mp hdm'
    obtain ⟨dm, hdm, hs⟩ := Pointwise.getElem? hm hd
    exact hs.aligned (h.ok.aligned dm (List.mem_of_getElem? hdm))
  have haddrs : (allObjs cfg.dynmems).map (·.1) = cfg.addrs := allObjs_map_fst h.ok.aligned
  have haddrs' : (allObjs cfg'.dynmems).map (·.1) = cfg'.addrs := allObjs_map_fst hal
  -- No address is twice in the queue and the classes.
  have hnodup : (((ms.map AllocMsg.obj ++ allObjs cfg.dynmems).map (·.1) : List Ptr)).Nodup := by
    have hperm : (ms.map AllocMsg.obj ++ allObjs cfg.dynmems).Perm
        (ObjRun.expected ⟨mq, cfg, live⟩) := by
      rw [← Multiset.coe_eq_coe, ← Multiset.coe_add]
      exact h.objs
    exact (hperm.map _).nodup_iff.mpr (nodup_expected h.nodup)
  rw [List.map_append] at hnodup
  have hdis := List.disjoint_of_nodup_append hnodup
  have hrest : allObjs cfg'.dynmems = (allObjs cfg.dynmems).filter (·.1 ∈ cfg'.addrs) := by
    rw [← haddrs']
    exact eq_filter_of_sublist (sublist_allObjs hm) (List.nodup_append.mp hnodup).2.1
  have hmem : ∀ {a : Ptr}, a ∈ (markKicked cfg cfg' live).map (·.memAddr) ↔
      a ∈ live.map (·.memAddr) := by
    have := congrArg (List.map fun x : Ptr × SizeT => x.1) (map_markKicked cfg cfg' live)
    rw [List.map_map, List.map_map] at this
    intro a
    exact iff_of_eq (congrArg (a ∈ ·) this)
  refine ⟨h.holds, ?_, ?_, fun o ho => ?_, ⟨hal, fun d dm' hd hne => ?_⟩,
    fun m hm => hrules.accepted (h.accepted m hm)⟩
  · have hobjs := congrArg (Multiset.filter fun x : Ptr × SizeT =>
      ¬ (x.1 ∈ cfg.addrs ∧ x.1 ∉ cfg'.addrs)) h.objs
    rw [Multiset.filter_add, Multiset.filter_coe, Multiset.filter_coe, Multiset.filter_coe] at hobjs
    rw [ObjRun.expected, expected_markKicked]
    refine Eq.trans ?_ hobjs
    congr 2
    · refine (List.filter_eq_self.mpr fun x hx => ?_).symm
      have hno : x.1 ∉ cfg.addrs := by
        rw [← haddrs]
        exact hdis (List.mem_map_of_mem hx)
      simp [hno]
    · rw [hrest]
      refine List.filter_congr fun x hx => ?_
      have hin : x.1 ∈ cfg.addrs := by
        rw [← haddrs]
        exact List.mem_map_of_mem hx
      simp [hin]
  · have := congrArg (List.map fun x : Ptr × SizeT => x.1) (map_markKicked cfg cfg' live)
    rw [List.map_map, List.map_map] at this
    exact (show (markKicked cfg cfg' live).map (·.memAddr) = live.map (·.memAddr) from this) ▸ h.nodup
  · obtain ⟨o', ho', heq⟩ := List.mem_map.mp (hmem.mp (List.mem_map_of_mem ho))
    exact heq ▸ h.nonzero o' ho'
  · obtain ⟨dm, hdm, hs⟩ := Pointwise.getElem? hm hd
    have hne' : dm.objs ≠ [] := fun he => hne (List.sublist_nil.mp (he ▸ hs.sublist))
    have := h.ok.refs d dm hdm hne'
    unfold Refs at this ⊢
    rw [hr]
    exact this

end Cycles

/-! ## Steps -/

/-- The objects after a phase. -/
def Trainer.liveAfter (s s' : Trainer) (live : List LiveObj) : List LiveObj :=
  if s.phase = .process then markKicked s.opt.toCfgMem s'.opt.toCfgMem live else live

section Steps

variable {chunk : Nat} {s s' : Trainer} {i : LoopInput} {live : List LiveObj} {codes : List Ptr}
  {cfg : CfgMem}

theorem outputDynmemChanges_sameTracks (s : Trainer) :
    s.opt.SameTracks s.outputDynmemChanges.opt.toCfgMem := by
  refine ⟨?_, rfl⟩
  show (s.opt.dynmems.map fun dm => { dm with numAlloc := 0 }).map DynMemEntry.track = _
  rw [List.map_map]
  rfl

theorem Trainer.Tracks.outputDynmemChanges (h : s.Tracks live codes) :
    s.outputDynmemChanges.Tracks live codes :=
  h.of_same rfl (outputDynmemChanges_sameTracks s)

theorem Trainer.Tracks.freeDynmem (h : s.Tracks live codes) :
    (s.setCfg (freeDynmem s.opt.toCfgMem)).Tracks live codes := by
  obtain ⟨ms, hinv⟩ := h.inv
  obtain ⟨s₁, hs₁, hinv₁⟩ := step_freeDynmem hinv
  cases hs₁
  exact ⟨⟨ms, hinv₁⟩, h.knows.of_sameRules (sameRules_freeDynmem _)⟩

theorem Trainer.Tracks.allocDynmem (h : s.Tracks live codes) :
    (s.setCfg (allocDynmem s.opt.toCfgMem)).Tracks live codes := by
  obtain ⟨ms, hinv⟩ := h.inv
  obtain ⟨s₁, hs₁, hinv₁⟩ := step_allocDynmem hinv
  cases hs₁
  exact ⟨⟨ms, hinv₁⟩, h.knows.of_sameRules (sameRules_allocDynmem _)⟩

theorem processMallocs_sameRules (cfg : CfgMem) {pmask : PMask} {mq mq' : MQueue}
    {dynmems : List DynMemEntry}
    (h : processMallocs (allocMf cfg.entries) pmask mq cfg.dynmems = .ok (mq', dynmems)) :
    cfg.SameRules { cfg with dynmems := dynmems } := by
  obtain ⟨res, hres, h⟩ := Run.bind_eq_ok.mp h
  obtain ⟨data, -, h⟩ := Run.bind_eq_ok.mp h
  cases h
  refine parseLoop_acc (R := fun ds ds' => CfgMem.SameRules { cfg with dynmems := ds }
    { cfg with dynmems := ds' }) (fun _ => .refl _) (fun _ _ _ => .trans) (fun call a a' hc => ?_) hres
  cases call with
  | mf pp memAddr memSize codeOffs codeAddr stackOffs =>
    cases hc
    exact sameRules_allocDynmemAddr { cfg with dynmems := a } memAddr memSize codeAddr
  | ff | lf | sf | skip =>
    cases hc
    exact .refl _

/-- **The queue is flushed** into the classes. -/
theorem Trainer.Tracks.newObjects (h : s.Tracks live codes) (hn : s.newObjects = .ok s') :
    s'.Tracks live codes := by
  obtain ⟨ms, hinv⟩ := h.inv
  obtain ⟨s₁, hs₁, hinv₁⟩ := step_processMallocs hinv
  obtain ⟨⟨mq, dynmems⟩, hp, hn⟩ := Run.bind_eq_ok.mp hn
  cases hn
  simp only [ObjRun.step, hp, Run.ok_bind] at hs₁
  cases hs₁
  have h₁ : Trainer.Tracks { s with mq := mq, opt := { s.opt with dynmems := dynmems } } live codes :=
    ⟨⟨[], hinv₁⟩, h.knows.of_sameRules (processMallocs_sameRules s.opt.toCfgMem hp)⟩
  exact h₁.outputDynmemChanges.allocDynmem

theorem latePic_dynmems {rlist : List Region} {ls : List Nat} {opt opt' : Options}
    (h : ls.foldlM (Trainer.handleLatePic rlist) opt = .ok opt') : opt'.dynmems = opt.dynmems := by
  induction ls generalizing opt with
  | nil =>
    cases h
    rfl
  | cons l ls ih =>
    obtain ⟨opt₁, h₁, h⟩ := Run.bind_eq_ok.mp h
    refine (ih h).trans ?_
    unfold Trainer.handleLatePic at h₁
    split at h₁
    · cases h₁
      rfl
    · split at h₁
      · cases h₁
        rfl
      · obtain ⟨x, -, h₁⟩ := Run.bind_eq_ok.mp h₁
        cases h₁
        rfl

/-- **Every phase** keeps the tracking, as long as no message is read. -/
theorem step_tracks (h : s.step chunk { i with msgs := [] } = .ok s') (ht : s.Tracks live codes) :
    s'.Tracks (s.liveAfter s' live) codes := by
  have hkeep : ∀ {s₁ : Trainer}, s.phase ≠ .process → s₁.Tracks live codes →
      s₁.Tracks (s.liveAfter s₁ live) codes := by
    intro s₁ hne h₁
    rw [Trainer.liveAfter, if_neg hne]
    exact h₁
  have hnext : ∀ {s₁ : Trainer} (phase : Phase), s₁.Tracks live codes →
      (s₁.next phase).Tracks live codes := fun _ h₁ => h₁.of_same rfl (.refl _)
  have hiter : ∀ b, (s.nextIter b).Tracks live codes := fun b => hnext _ ht
  have hread : ∀ f : Trainer → Trainer, s.afterFifo [] f = .ok s' →
      (∀ s₁ : Trainer, s₁.Tracks live codes → (f s₁).Tracks live codes) → s'.Tracks live codes := by
    intro f h hf
    unfold Trainer.afterFifo at h
    split at h
    · cases h
      exact hf s ht
    · simp only [Trainer.readFifo, Run.ok_bind] at h
      cases h
      split
      · exact ht
      · exact hf s ht
  unfold Trainer.step at h
  cases hp : s.phase with
  | input =>
    simp only [hp] at h
    cases h
    refine hkeep (by simp [hp]) (hnext _ ?_)
    cases i.key with
    | none => exact ht
    | some ch =>
      rw [Option.elim_some]
      split
      · obtain ⟨hmq, hd⟩ := handleInputChar_track s ch
        exact ht.of_same hmq ⟨hd, (handleInputChar_keeps ch).refs⟩
      · exact ht
  | fifo =>
    simp only [hp] at h
    exact hkeep (by simp [hp]) (hread _ h fun s₁ h₁ => hnext _ h₁.outputDynmemChanges)
  | free =>
    simp only [hp] at h
    refine hkeep (by simp [hp]) ?_
    split at h
    · cases h
      exact hiter _
    · split at h <;> cases h
      · exact hnext _ ht
      · exact hnext _ ht.freeDynmem
  | attach | detach =>
    simp only [hp] at h
    cases h
    refine hkeep (by simp [hp]) ?_
    split
    · exact hnext _ ht
    · exact hiter _
  | fifoAgain =>
    simp only [hp] at h
    exact hkeep (by simp [hp]) (hread _ h fun s₁ h₁ => hnext _ h₁)
  | process =>
    simp only [hp] at h
    obtain ⟨p, hproc, h⟩ := Run.bind_eq_ok.mp h
    cases h
    rw [Trainer.liveAfter, if_pos hp]
    obtain ⟨ms, hinv⟩ := ht.inv
    have hm := process_marks hproc
    have hr := (process_keeps hproc).refs
    exact ⟨⟨ms, hinv.of_marks hm hr⟩,
      ht.knows.of_sameRules ⟨hm.imp fun _ _ hs => hs.accepts, hr⟩⟩
  | late =>
    simp only [hp] at h
    obtain ⟨opt, ho, h⟩ := Run.bind_eq_ok.mp h
    cases h
    refine hkeep (by simp [hp]) ?_
    have hk := (handleHeapChecks_keeps (s := s) i.heap).trans (latePic_keeps ho)
    refine ht.of_same ?_ (hk.sameTracks ?_)
    · show (s.handleHeapChecks i.heap).mq = s.mq
      unfold Trainer.handleHeapChecks
      split <;> rfl
    · refine (latePic_dynmems ho).trans ?_
      unfold Trainer.handleHeapChecks
      split <;> rfl
  | freeKicked =>
    simp only [hp] at h
    refine hkeep (by simp [hp]) ?_
    split at h <;> cases h
    · exact hnext _ ht
    · exact hnext _ ht.outputDynmemChanges.freeDynmem
  | output =>
    simp only [hp] at h
    obtain ⟨s₁, h₁, h⟩ := Run.bind_eq_ok.mp h
    cases h
    refine hkeep (by simp [hp]) (hnext _ ?_)
    have hsame : (s₁.mq, s₁.opt.dynmems) = (s.mq, s.opt.dynmems) := by
      refine outputMemValues_same (f := fun s : Trainer => (s.mq, s.opt.dynmems)) ?_ ?_ ?_ h₁
      · intro s s' e k hd
        unfold Trainer.display at hd
        split at hd
        · cases hd
        · split at hd <;> cases hd
          rfl
      · exact fun _ _ => rfl
      · exact fun _ _ => rfl
    exact ht.of_same (congrArg (·.1) hsame)
      ((outputMemValues_keeps h₁).sameTracks (congrArg (·.2) hsame))
  | mallocs =>
    simp only [hp] at h
    refine hkeep (by simp [hp]) ?_
    split at h
    · cases h
      exact hnext _ ht
    · obtain ⟨s₁, h₁, h⟩ := Run.bind_eq_ok.mp h
      cases h
      exact hnext _ (ht.newObjects h₁)
  | stopped =>
    simp only [hp] at h
    cases h
    exact hkeep (by simp [hp]) ht

end Steps

end UgTrain
