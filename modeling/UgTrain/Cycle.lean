import UgTrain.Targets

/-!
# The calls of a cycle (`process_act_cfg`)

A cycle is a sequence of calls: one for an activated entry outside of classes, one for a class at the
first of its entries that stand together (`processEntries_visits`). So a class with activated entries
is processed once exactly if its entries stand together, which keys do not keep.
-/

namespace UgTrain

open CLib

/-! ## Calls -/

/-- A call of the loop over the activated entries. -/
inductive Visit where
  | dynmem (d : Nat)
  | entry (e : Nat)
  deriving DecidableEq, Repr

def Visit.dynmem? : Visit → Option Nat
  | .dynmem d => some d
  | .entry _ => none

/-- The calls behind one for the class `old`. -/
def CfgMem.visits (cfg : CfgMem) (old : Option Nat) : List Nat → List Visit
  | [] => []
  | e :: cfgAct =>
    match cfg.classOf e with
    | some d =>
      if some d = old then cfg.visits old cfgAct else .dynmem d :: cfg.visits (some d) cfgAct
    | none => .entry e :: cfg.visits old cfgAct

def ProcState.visit (chunk : Nat) (s : ProcState) : Visit → Except Fault ProcState
  | .dynmem d => processDynmemCfgAct chunk d s
  | .entry e =>
    match s.opt.entries[e]? with
    | none => .error .nullPointer
    | some en => processStaticEntry chunk e en s

/-- Between equal elements stand only equal ones. -/
def Grouped {α : Type} (l : List α) : Prop := ∀ a b, [a, b, a].Sublist l → b = a

/-- Every class with activated entries is called once. -/
def CfgMem.CalledOnce (cfg : CfgMem) (cfgAct : List Nat) : Prop :=
  ∀ d, (∃ e ∈ cfgAct, cfg.classOf e = some d) → (cfg.visits none cfgAct).count (.dynmem d) = 1

/-- The event is that of processing an entry for the object `k`. -/
def ProcEvent.handles (e k : Nat) : ProcEvent → Bool
  | .read e' slot _ => e' = e ∧ slot = some k
  | .pointer e' i _ _ => e' = e ∧ i = k
  | _ => false

/-! ## Grouped lists -/

section Grouped

variable {α : Type} {a b : α} {l : List α}

theorem grouped_cons_self : Grouped (a :: a :: l) ↔ Grouped (a :: l) := by
  constructor
  · exact fun h x y hs => h x y (hs.cons a)
  · intro h x y hs
    cases hs with
    | cons _ hs => exact h x y hs
    | cons_cons _ hs =>
      cases hs with
      | cons _ hs => exact h a y (hs.cons_cons a)
      | cons_cons _ hs => rfl

theorem grouped_cons_ne (hab : a ≠ b) :
    Grouped (a :: b :: l) ↔ a ∉ b :: l ∧ Grouped (b :: l) := by
  constructor
  · intro h
    refine ⟨fun hm => ?_, fun x y hs => h x y (hs.cons a)⟩
    have hm : a ∈ l := (List.mem_cons.mp hm).resolve_left hab
    exact hab (h a b (((List.singleton_sublist.mpr hm).cons_cons b).cons_cons a)).symm
  · rintro ⟨hn, h⟩ x y hs
    cases hs with
    | cons _ hs => exact h x y hs
    | cons_cons _ hs => exact absurd (hs.subset (by simp)) hn

variable [DecidableEq α]

theorem mem_destutter'_ne : b ∈ l.destutter' (· ≠ ·) a ↔ b = a ∨ b ∈ l := by
  induction l generalizing a with
  | nil => simp
  | cons c l ih =>
    by_cases hac : a = c
    · subst hac
      rw [List.destutter'_cons_neg _ (by simp), ih]
      simp
    · rw [List.destutter'_cons_pos _ hac, List.mem_cons, ih, List.mem_cons]

/-- Taking repetitions out leaves no element twice. -/
theorem nodup_destutter'_iff : (l.destutter' (· ≠ ·) a).Nodup ↔ Grouped (a :: l) := by
  induction l generalizing a with
  | nil =>
    simp only [List.destutter'_nil, List.nodup_cons, List.not_mem_nil, not_false_eq_true,
      List.nodup_nil, and_self, true_iff]
    intro x y hs
    simpa using hs.length_le
  | cons b l ih =>
    by_cases hab : a = b
    · subst hab
      rw [List.destutter'_cons_neg _ (by simp), ih, grouped_cons_self]
    · rw [List.destutter'_cons_pos _ hab, List.nodup_cons, ih, mem_destutter'_ne, ← List.mem_cons,
        grouped_cons_ne hab]

theorem nodup_destutter_iff : (l.destutter (· ≠ ·)).Nodup ↔ Grouped l := by
  cases l with
  | nil =>
    simp only [List.destutter_nil, List.nodup_nil, true_iff]
    intro x y hs
    simpa using hs.length_le
  | cons a l => rw [List.destutter_cons', nodup_destutter'_iff]

theorem mem_destutter_ne : a ∈ l.destutter (· ≠ ·) ↔ a ∈ l := by
  cases l with
  | nil => simp
  | cons b l => rw [List.destutter_cons', mem_destutter'_ne, List.mem_cons]

end Grouped

/-! ## The calls as a list -/

section Visits

variable {chunk : Nat} {cfg : CfgMem} {opt : Options} {s s' : ProcState} {e d : Nat}
  {cfgAct : List Nat}

theorem Options.Same.classOf {opt' : Options} (h : opt.Same opt') (e : Nat) :
    opt'.classOf e = opt.classOf e := by
  unfold CfgMem.classOf
  cases he : opt.entries[e]? with
  | none =>
    have := congrArg (·[e]?) h.entries
    simp only [List.getElem?_map, he, Option.map_none, Option.map_eq_none_iff] at this
    rw [this]
  | some en =>
    obtain ⟨en', he', hs⟩ := h.entry he
    rw [he', Option.bind_some, Option.bind_some, (CfgEntry.shape_fields hs).2.2.1]

theorem processValue_same {e memIdx : Nat} {en : CfgEntry} {memOffs : Ptr} {slot : Option Nat}
    (hen : s.Is e en) (h : processValue chunk e en memOffs memIdx slot s = .ok s') :
    s.opt.Same s'.opt := by
  refine (processValue_steps (C := fun _ => True) hen ⟨fun _ _ => ⟨trivial, trivial⟩, fun _ => ?_⟩
    h).same
  exact ⟨⟨fun _ => trivial, fun _ _ _ _ _ _ _ _ => ⟨trivial, trivial⟩⟩, fun _ _ => trivial⟩

theorem visit_same {v : Visit} (h : s.visit chunk v = .ok s') : s.opt.Same s'.opt := by
  cases v with
  | dynmem d =>
    have h : Steps (Allowed [] s.opt) s s' := processDynmemCfgAct_steps (cycleEvents_allowed [] _) h
    exact h.same
  | entry e =>
    simp only [ProcState.visit] at h
    cases he : s.opt.entries[e]? with
    | none =>
      rw [he] at h
      cases h
    | some en =>
      rw [he] at h
      rcases processStaticEntry_cases (C := fun _ => True) h with h | ⟨s₁, h₁, h⟩
      · exact h.same
      · obtain ⟨en₁, he₁, hs⟩ := h₁.same.entry he
        exact h₁.same.trans (processValue_same ⟨en₁, he₁, hs⟩ h)

/-- **The loop over the activated entries** makes these calls. -/
theorem processEntries_visits (old : Option Nat) (hs : opt.Same s.opt) :
    processEntries chunk old cfgAct s =
      (opt.visits old cfgAct).foldlM (fun s v => s.visit chunk v) s := by
  induction cfgAct generalizing old s with
  | nil => rfl
  | cons e cfgAct ih =>
    have hclass := hs.classOf e
    unfold processEntries CfgMem.visits
    rw [← hclass, CfgMem.classOf]
    cases he : s.opt.entries[e]? with
    | none => simp [ProcState.visit, he, throw, throwThe, MonadExceptOf.throw, bind, Except.bind]
    | some en =>
      rw [Option.bind_some]
      have hrest : ∀ (old : Option Nat) (v : Visit), (s.visit chunk v >>= fun s₁ =>
          processEntries chunk old cfgAct s₁) = (v :: opt.visits old cfgAct).foldlM
            (fun s v => s.visit chunk v) s := by
        intro old v
        rw [List.foldlM_cons]
        cases hv : s.visit chunk v with
        | error e => rfl
        | ok s₁ => exact ih old (hs.trans (visit_same hv))
      cases hd : en.dynmem with
      | none =>
        rw [← hrest]
        simp only [hd, ProcState.visit, he]
      | some d =>
        simp only [hd]
        split
        · exact ih old hs
        · rw [← hrest]
          rfl

/-- The classes that are called: those of the entries without repetitions. -/
theorem visits_dynmems (old : Nat) : old :: (cfg.visits (some old) cfgAct).filterMap Visit.dynmem? =
    (cfgAct.filterMap cfg.classOf).destutter' (· ≠ ·) old := by
  induction cfgAct generalizing old with
  | nil => rfl
  | cons e cfgAct ih =>
    unfold CfgMem.visits
    cases hd : cfg.classOf e with
    | none =>
      rw [List.filterMap_cons_none hd, List.filterMap_cons_none rfl, ih]
    | some d =>
      rw [List.filterMap_cons_some hd]
      dsimp only
      by_cases hdo : d = old
      · subst hdo
        rw [if_pos rfl, List.destutter'_cons_neg _ (by simp), ih]
      · rw [if_neg (by simpa using hdo), List.destutter'_cons_pos _ (Ne.symm hdo), ← ih d]
        rfl

theorem visits_dynmems_none : (cfg.visits none cfgAct).filterMap Visit.dynmem? =
    (cfgAct.filterMap cfg.classOf).destutter (· ≠ ·) := by
  induction cfgAct with
  | nil => rfl
  | cons e cfgAct ih =>
    unfold CfgMem.visits
    cases hd : cfg.classOf e with
    | none => rw [List.filterMap_cons_none hd, List.filterMap_cons_none rfl, ih]
    | some d =>
      rw [List.filterMap_cons_some hd, List.destutter_cons', ← visits_dynmems]
      rfl

theorem count_visits (vs : List Visit) :
    vs.count (.dynmem d) = (vs.filterMap Visit.dynmem?).count d := by
  induction vs with
  | nil => rfl
  | cons v vs ih =>
    cases v with
    | dynmem d' => simp [Visit.dynmem?, List.count_cons, ih]
    | entry e =>
      rw [List.count_cons_of_ne (by simp), List.filterMap_cons_none rfl, ih]

/-- **Each class is called once** exactly if its entries stand together. -/
theorem calledOnce_iff : cfg.CalledOnce cfgAct ↔ Grouped (cfgAct.filterMap cfg.classOf) := by
  have hmem : ∀ d, (∃ e ∈ cfgAct, cfg.classOf e = some d) ↔
      d ∈ (cfgAct.filterMap cfg.classOf).destutter (· ≠ ·) := by
    intro d
    rw [mem_destutter_ne, List.mem_filterMap]
  unfold CfgMem.CalledOnce
  simp only [hmem, count_visits, visits_dynmems_none]
  rw [← nodup_destutter_iff, List.nodup_iff_count_le_one]
  refine forall_congr' fun d => ⟨fun h => ?_, fun h hd => ?_⟩
  · by_cases hd : d ∈ (cfgAct.filterMap cfg.classOf).destutter (· ≠ ·)
    · exact (h hd).le
    · simp [List.count_eq_zero.mpr hd]
  · exact le_antisymm h (List.count_pos_iff.mpr hd)

/-- An entry is called as often as it is in the list. -/
theorem count_visits_entry (old : Option Nat) :
    (cfg.visits old cfgAct).count (.entry e) ≤ cfgAct.count e := by
  induction cfgAct generalizing old with
  | nil => exact le_rfl
  | cons e' cfgAct ih =>
    unfold CfgMem.visits
    cases cfg.classOf e' with
    | none =>
      simp only [List.count_cons, beq_iff_eq, Visit.entry.injEq]
      exact Nat.add_le_add_right (ih old) _
    | some d =>
      rw [List.count_cons]
      dsimp only
      split
      · exact (ih old).trans (Nat.le_add_right ..)
      · rw [List.count_cons_of_ne (by simp)]
        exact (ih _).trans (Nat.le_add_right ..)

end Visits

/-! ## What is processed -/

section Handled

variable {chunk e k : Nat} {C : ProcEvent → Prop} {q : ProcEvent → Bool} {opt : Options}
  {s s' : ProcState}

theorem Steps.countP_eq (h : Steps C s s') (hC : ∀ ev, C ev → q ev = false) :
    s'.events.countP q = s.events.countP q := by
  obtain ⟨evs, he, hev⟩ := h.events
  rw [he, List.countP_append, Nat.add_eq_left, List.countP_eq_zero]
  exact fun ev hm => by simp [hC ev (hev ev hm)]

theorem Prim.countP_le {P : Prop} [Decidable P] (h : Prim C s s')
    (hC : ∀ ev, C ev → q ev = true → P) :
    s'.events.countP q ≤ s.events.countP q + if P then 1 else 0 := by
  rcases h.events with he | ⟨ev, hev, he⟩
  · rw [he]
    exact Nat.le_add_right ..
  · rw [he, List.countP_append, List.countP_singleton]
    refine Nat.add_le_add_left ?_ _
    split
    · rename_i hq
      rw [if_pos (hC ev hev hq)]
    · exact Nat.zero_le _

/-- A loop adds what its rounds for one element add. -/
theorem foldlM_countP_le {ι : Type} [DecidableEq ι] {f : ProcState → ι → Except Fault ProcState}
    {l : List ι} (hot : ι) {w : Nat}
    (hf : ∀ s s' i, i ∈ l → opt.Same s.opt → f s i = .ok s' → s.opt.Same s'.opt ∧
      s'.events.countP q ≤ s.events.countP q + if i = hot then w else 0)
    (hs : opt.Same s.opt) (h : l.foldlM f s = .ok s') :
    s.opt.Same s'.opt ∧ s'.events.countP q ≤ s.events.countP q + w * l.count hot := by
  induction l generalizing s with
  | nil =>
    cases h
    exact ⟨.refl _, Nat.le_add_right ..⟩
  | cons i l ih =>
    obtain ⟨s₁, h₁, h⟩ := Run.bind_eq_ok.mp h
    obtain ⟨hs₁, hle⟩ := hf s s₁ i List.mem_cons_self hs h₁
    obtain ⟨hs', hrest⟩ := ih (fun s s' j hj => hf s s' j (List.mem_cons_of_mem i hj))
      (hs.trans hs₁) h
    refine ⟨hs₁.trans hs', ?_⟩
    rw [List.count_cons, Nat.mul_add]
    simp only [beq_iff_eq, mul_ite, mul_one, mul_zero]
    omega

/-- The entry is in no pointer section. -/
def Options.Outside (opt : Options) (e : Nat) : Prop :=
  ∀ (p : Nat) (pm : PtrMemEntry), opt.ptrmems[p]? = some pm → e ∉ pm.cfgAct

theorem Options.Outside.of_same {opt' : Options} (h : opt.Outside e) (hs : opt.Same opt') :
    opt'.Outside e := by
  intro p pm hp
  obtain ⟨pm', hp', hsh⟩ := hs.symm.ptrmem hp
  rw [← (PtrMemEntry.shape_fields hsh).2.1]
  exact h p pm' hp'

/-- A value or a pointer is processed once. -/
theorem processValue_countP_le {e' memIdx : Nat} {en : CfgEntry} {memOffs : Ptr}
    {slot : Option Nat} (hen : s.Is e' en) (hslot : ∀ i, slot = some i → i = memIdx)
    (he : s.opt.Outside e) (h : processValue chunk e' en memOffs memIdx slot s = .ok s') :
    s'.events.countP (·.handles e k) ≤
      s.events.countP (·.handles e k) + if e' = e ∧ memIdx = k then 1 else 0 := by
  unfold processValue at h
  split at h
  · have hC : TargetEvents (fun ev => ev.handles e k = false) s.opt e' memIdx en := by
      refine ⟨fun _ => rfl, fun p pm t _ hp ht _ b => ⟨?_, rfl⟩⟩
      have hne : t ≠ e := fun heq => he p pm hp (heq ▸ ht)
      simp [ProcEvent.handles, hne]
    obtain ⟨s₁, h₁, h₂⟩ := processPtrmem_pointer hen hC h
    rw [Steps.countP_eq h₂ fun _ hev => hev]
    rcases h₁ with rfl | h₁
    · exact Nat.le_add_right ..
    · refine h₁.countP_le ?_
      rintro _ ⟨b, v, rfl⟩ hq
      simpa [ProcEvent.handles] using hq
  · obtain ⟨s₁, h₁, h₂⟩ := changeMemory_read hen h
    rw [Steps.countP_eq h₂ (by rintro _ ⟨v, rfl⟩; rfl)]
    refine h₁.countP_le ?_
    rintro _ ⟨b, rfl⟩ hq
    simp only [ProcEvent.handles, Bool.decide_and, Bool.and_eq_true, decide_eq_true_eq] at hq
    exact ⟨hq.1, (hslot k hq.2).symm⟩

theorem processObjEntry_countP_le {d memIdx e' : Nat} (he : s.opt.Outside e)
    (h : processObjEntry chunk d memIdx s e' = .ok s') : s.opt.Same s'.opt ∧
      s'.events.countP (·.handles e k) ≤
        s.events.countP (·.handles e k) + if e' = e ∧ memIdx = k then 1 else 0 := by
  cases hd : s.opt.dynmems[d]? with
  | none =>
    unfold processObjEntry at h
    rw [hd] at h
    cases h
  | some dm =>
    obtain h | ⟨en, memOffs, s₁, h₁, hen, hi, h⟩ :=
      processObjEntry_cases (C := fun _ => False) hd h
    · refine ⟨h.same, ?_⟩
      rw [h.countP_eq fun _ hev => hev.elim]
      exact Nat.le_add_right ..
    · obtain ⟨en₁, he₁, hs⟩ := h₁.same.entry hen
      have hle := processValue_countP_le (k := k) ⟨en₁, he₁, hs⟩
        (fun i hi => (Option.some.inj hi).symm) (he.of_same h₁.same) h
      rw [h₁.countP_eq fun _ hev => hev.elim] at hle
      exact ⟨h₁.same.trans (processValue_same ⟨en₁, he₁, hs⟩ h), hle⟩

theorem processObj_countP_le {d memIdx : Nat} {l : List Nat} (he : s.opt.Outside e)
    (h : processObj chunk d l s memIdx = .ok s') : s.opt.Same s'.opt ∧
      s'.events.countP (·.handles e k) ≤
        s.events.countP (·.handles e k) + if memIdx = k then l.count e else 0 := by
  unfold processObj at h
  obtain ⟨s₁, h₁, h⟩ := Run.bind_eq_ok.mp h
  cases h
  have hinv : s.opt.Same (s.invalidateCaches (.dynmem d)).opt := ⟨rfl, rfl, rfl, rfl, rfl⟩
  obtain ⟨hs, hle⟩ := foldlM_countP_le (q := (·.handles e k)) e
    (w := if memIdx = k then 1 else 0) (fun s₂ s₃ e' _ hs h => by
      have := processObjEntry_countP_le (k := k) (he.of_same hs) h
      rwa [ite_and] at this) hinv h₁
  have hwrite : s₁.opt.Same (s₁.writeCaches (.dynmem d)).opt := ⟨rfl, rfl, rfl, rfl, rfl⟩
  refine ⟨hinv.trans (hs.trans hwrite), hle.trans_eq ?_⟩
  rw [ite_mul, one_mul, zero_mul]
  rfl

/-- The objects of a class: an entry of the class is processed once for each. -/
theorem processDynmemCfgAct_countP_le {d : Nat} (he : s.opt.Outside e)
    (h : processDynmemCfgAct chunk d s = .ok s') : ∃ dm, s.opt.dynmems[d]? = some dm ∧
      s'.events.countP (·.handles e k) ≤ s.events.countP (·.handles e k) + dm.cfgAct.count e := by
  unfold processDynmemCfgAct at h
  split at h
  · cases h
  · rename_i dm hd
    obtain ⟨s₁, h₁, h⟩ := Run.bind_eq_ok.mp h
    cases h
    have hbuf : s.opt.Same (s.setBuf 0).opt := ⟨rfl, rfl, rfl, rfl, rfl⟩
    obtain ⟨-, hle⟩ := foldlM_countP_le (q := (·.handles e k)) k (w := dm.cfgAct.count e)
      (fun s₂ s₃ i _ hs h => processObj_countP_le (he.of_same hs) h) hbuf h₁
    refine ⟨dm, hd, hle.trans (Nat.add_le_add_left ?_ _)⟩
    exact mul_le_of_le_one_right' (List.nodup_iff_count_le_one.mp List.nodup_range k)

/-- The call that an entry is processed in. -/
def CfgMem.visitOf (cfg : CfgMem) (e : Nat) : Visit := (cfg.classOf e).elim (.entry e) .dynmem

theorem visit_countP_le {v : Visit} (hs : opt.Same s.opt)
    (he : opt.Outside e)
    (hact : ∀ d dm, opt.dynmems[d]? = some dm → dm.cfgAct.count e ≤
      if opt.classOf e = some d then 1 else 0)
    (hv : ∀ e', v = .entry e' → opt.classOf e' = none) (h : s.visit chunk v = .ok s') :
    s'.events.countP (·.handles e k) ≤
      s.events.countP (·.handles e k) + if v = opt.visitOf e then 1 else 0 := by
  cases v with
  | dynmem d =>
    obtain ⟨dm, hd, hle⟩ := processDynmemCfgAct_countP_le (he.of_same hs) h
    obtain ⟨dm₀, hd₀, hsh⟩ := hs.symm.dynmem hd
    rw [← (DynMemEntry.shape_fields hsh).1] at hle
    refine hle.trans (Nat.add_le_add_left ((hact d dm₀ hd₀).trans ?_) _)
    by_cases hc : opt.classOf e = some d
    · simp [CfgMem.visitOf, hc]
    · simp [hc]
  | entry e' =>
    have hclass := hv e' rfl
    simp only [ProcState.visit] at h
    cases he' : s.opt.entries[e']? with
    | none =>
      rw [he'] at h
      cases h
    | some en =>
      rw [he'] at h
      rcases processStaticEntry_cases (C := fun _ => False) h with h | ⟨s₁, h₁, h⟩
      · rw [h.countP_eq fun _ hev => hev.elim]
        exact Nat.le_add_right ..
      · obtain ⟨en₁, he₁, hsh⟩ := h₁.same.entry he'
        have hle := processValue_countP_le (k := k) ⟨en₁, he₁, hsh⟩ (fun i hi => by cases hi)
          (he.of_same (hs.trans h₁.same)) h
        rw [h₁.countP_eq fun _ hev => hev.elim] at hle
        refine hle.trans (Nat.add_le_add_left ?_ _)
        by_cases hee : e' = e
        · subst hee
          simp only [CfgMem.visitOf, hclass, Option.elim_none, if_true]
          split <;> omega
        · simp [hee]

theorem classOf_of_mem_visits {cfg : CfgMem} {cfgAct : List Nat} (old : Option Nat)
    (h : .entry e ∈ cfg.visits old cfgAct) : cfg.classOf e = none := by
  induction cfgAct generalizing old with
  | nil => cases h
  | cons e' cfgAct ih =>
    unfold CfgMem.visits at h
    cases hc : cfg.classOf e' with
    | none =>
      rw [hc] at h
      rcases List.mem_cons.mp h with h | h
      · cases h
        exact hc
      · exact ih old h
    | some d =>
      rw [hc] at h
      dsimp only at h
      split at h
      · exact ih old h
      · rcases List.mem_cons.mp h with h | h
        · cases h
        · exact ih _ h

/-- **If the entries of each class stand together**, an activated entry is processed at most once
for each object. -/
theorem cycle_countP_le {st : Trainer} {i : LoopInput} {p : ProcState} (hst : st.Activated)
    (hgr : Grouped (st.cfgAct.filterMap st.opt.classOf)) (he : e ∈ st.cfgAct)
    (hp : processActCfg chunk st.cfgAct (st.cycle i) = .ok p) :
    p.events.countP (·.handles e k) ≤ 1 := by
  have hout : st.opt.Outside e := by
    intro q pm hq hm
    have := (hst.targets q pm hq).2 e hm
    rw [(hst.entries e he).2] at this
    cases this
  have hact : ∀ d dm, st.opt.dynmems[d]? = some dm → dm.cfgAct.count e ≤
      if st.opt.classOf e = some d then 1 else 0 := by
    intro d dm hd
    rw [hst.classes d dm hd]
    split
    · exact List.nodup_iff_count_le_one.mp (hst.nodup.filter _) e
    · rename_i hne
      exact (List.count_eq_zero.mpr (by simp [hne])).le
  unfold processActCfg at hp
  obtain ⟨s₁, h₁, hp⟩ := Run.bind_eq_ok.mp hp
  cases hp
  have hinv : Steps (fun _ => False) (st.cycle i)
      (st.opt.cycleCaches.foldl (fun s mem => s.invalidateCaches mem) ((st.cycle i).setBuf 0)) :=
    (steps_setBuf 0).trans (foldl_steps (fun s mem => steps_invalidate mem) _ _)
  have hwrite : Steps (fun _ => False) s₁
      (st.opt.cycleCaches.foldl (fun s mem => s.writeCaches mem) s₁) :=
    foldl_steps (fun s mem => steps_write mem) _ _
  have h₂ : ((st.opt.visits none st.cfgAct).foldlM (fun s v => s.visit chunk v)
      (st.opt.cycleCaches.foldl (fun s mem => s.invalidateCaches mem) ((st.cycle i).setBuf 0))) =
        .ok s₁ := (processEntries_visits none hinv.same).symm.trans h₁
  have hle := (foldlM_countP_le (q := (·.handles e k)) (st.opt.visitOf e) (w := 1)
    (fun s₂ s₃ v hv hs h => ⟨visit_same h, visit_countP_le hs hout hact
      (fun e' he' => classOf_of_mem_visits none (he' ▸ hv)) h⟩) hinv.same h₂).2
  have hcount : (st.opt.visits none st.cfgAct).count (st.opt.visitOf e) ≤ 1 := by
    unfold CfgMem.visitOf
    cases hc : st.opt.classOf e with
    | none =>
      exact (count_visits_entry none).trans (List.nodup_iff_count_le_one.mp hst.nodup e)
    | some d => exact (calledOnce_iff.mpr hgr d ⟨e, he, hc⟩).le
  rw [hinv.countP_eq fun _ hev => hev.elim] at hle
  have hfinal : (st.opt.cycleCaches.foldl (fun s mem => s.writeCaches mem) s₁).events.countP
      (·.handles e k) = s₁.events.countP (·.handles e k) :=
    hwrite.countP_eq fun _ hev => hev.elim
  have hstart : (st.cycle i).events.countP (·.handles e k) = 0 := rfl
  show (st.opt.cycleCaches.foldl (fun s mem => s.writeCaches mem) s₁).events.countP _ ≤ 1
  omega

end Handled

/-! ## Runs -/

section Runs

variable {chunk : Nat} {s₀ s : Trainer} {is : List LoopInput}

end Runs

/-- Two classes, the first one with two bytes. -/
def CfgMem.twoClasses : CfgMem where
  entries := [.objByte 0, .objByte 0, .objByte 1]
  dynmems := [{ (default : DynMemEntry) with memSize := 8, codeAddr := 0x400, cfgAct := [0, 1] },
    { (default : DynMemEntry) with memSize := 8, codeAddr := 0x500, cfgAct := [2] }]
  ptrmems := []

/-- The main loop at its start, with a key for the first entry. -/
def Trainer.startKey (cfg : CfgMem) (cfgAct : List Nat) (key : Nat) : Trainer :=
  { start cfg cfgAct with cfgpMap := fun ch => if ch = key then [0] else [] }

/-- An iteration of the main loop in which a key is pressed. -/
def LoopInput.pressed (mem : Ptr → UInt8) (key : Nat) : List LoopInput :=
  { idle mem with key := some key } :: List.replicate 10 (.idle mem)

theorem loaded_startKey {cfg : CfgMem} {cfgAct : List Nat} (key : Nat) (h : cfg.Loaded cfgAct) :
    (Trainer.startKey cfg cfgAct key).Fresh ∧ (Trainer.startKey cfg cfgAct key).Activated := by
  have hf := h.fresh
  have ha := h.activated
  exact ⟨⟨hf.phase, hf.linked, hf.noObjs, hf.numFreed, hf.values, hf.states⟩,
    ha.nodup, ha.entries, ha.classes, ha.targets⟩

end UgTrain
