import UgTrain.EarlyAslr

/-!
# Which class gets an allocation

libmemhack reports an allocation because of an entry of its config, with the code address of that
entry or of its growth rule. ugtrain looks for a class by the code address alone.
`attribution_iff`: the object goes to the class that the entry was encoded from exactly if the class
takes the address and no class before it does.

* `CfgMem.origins`: for each entry of libmemhack's config the class it was encoded from, and its
  position there. Position 0 is the class itself, the others are its constructors.
* A class takes its own address and that of its growth rule. It takes the addresses of its
  constructors only if it has no growth rule.
-/

namespace UgTrain

open CLib

/-! ## The class that ugtrain finds -/

section Find

variable {dynmems : List DynMemEntry} {p : DynMemEntry → Bool} {es : List CfgEntry} {d : Nat}
  {dm : DynMemEntry}

theorem refs_cons {it : CfgEntry} : Refs (it :: es) d ↔ it.dynmem = some d ∨ Refs es d := by
  rw [Refs, List.map_cons, List.mem_cons, eq_comm]
  rfl

/-- No class before the one that was found fits. -/
theorem findDynmem_first (hs : (es.filterMap (·.dynmem)).Pairwise (· ≤ ·))
    (h : findDynmem dynmems p es = some (d, dm)) :
    ∀ d' dm', Refs es d' → d' < d → dynmems[d']? = some dm' → p dm' = false := by
  induction es with
  | nil => cases h
  | cons it es ih =>
    intro d' dm' hr hlt hd'
    rw [findDynmem] at h
    have hs' : (es.filterMap (·.dynmem)).Pairwise (· ≤ ·) := by
      cases hit : it.dynmem with
      | none => rwa [List.filterMap_cons_none hit] at hs
      | some x =>
        rw [List.filterMap_cons_some hit] at hs
        exact (List.pairwise_cons.mp hs).2
    cases hit : it.dynmem.bind fun d => (dynmems[d]?).map (d, ·) with
    | none =>
      rw [hit] at h
      rcases refs_cons.mp hr with heq | hr
      · rw [heq] at hit
        simp [hd'] at hit
      · exact ih hs' h d' dm' hr hlt hd'
    | some x =>
      rw [hit] at h
      obtain ⟨d₀, hd₀, hx⟩ := Option.bind_eq_some_iff.mp hit
      obtain ⟨dm₀, hdm₀, rfl⟩ := Option.map_eq_some_iff.mp hx
      simp only at h
      split at h
      · -- The entry found: all classes of the entries behind it come later.
        cases h
        rcases refs_cons.mp hr with heq | hr
        · rw [hd₀] at heq
          cases heq
          exact absurd hlt (lt_irrefl _)
        · rw [List.filterMap_cons_some hd₀, List.pairwise_cons] at hs
          obtain ⟨en, hen, hx⟩ := List.mem_map.mp hr
          have hle := hs.1 d' (List.mem_filterMap.mpr ⟨en, hen, hx⟩)
          omega
      · rename_i hp
        rcases refs_cons.mp hr with heq | hr
        · rw [hd₀] at heq
          cases heq
          rw [hdm₀] at hd'
          cases hd'
          simpa using hp
        · exact ih hs' h d' dm' hr hlt hd'

/-- **The class that is found** is the first one that fits. -/
theorem findDynmem_eq_some_iff (hs : (es.filterMap (·.dynmem)).Pairwise (· ≤ ·)) :
    findDynmem dynmems p es = some (d, dm) ↔
      Refs es d ∧ dynmems[d]? = some dm ∧ p dm = true ∧
        ∀ d' dm', Refs es d' → d' < d → dynmems[d']? = some dm' → p dm' = false := by
  constructor
  · intro h
    obtain ⟨hd, hp, hr⟩ := findDynmem_eq_some h
    exact ⟨hr, hd, hp, findDynmem_first hs h⟩
  · rintro ⟨hr, hd, hp, hfirst⟩
    obtain ⟨⟨d₁, dm₁⟩, h₁⟩ := Option.isSome_iff_exists.mp
      (findDynmem_isSome.mpr ⟨d, dm, hr, hd, hp⟩)
    obtain ⟨hd₁, hp₁, hr₁⟩ := findDynmem_eq_some h₁
    have hle : ¬ d₁ < d := fun hlt => by
      rw [hfirst d₁ dm₁ hr₁ hlt hd₁] at hp₁
      cases hp₁
    have hge : ¬ d < d₁ := fun hlt => by
      rw [findDynmem_first hs h₁ d dm hr hlt hd] at hp
      cases hp
    obtain rfl : d₁ = d := by omega
    rw [hd] at hd₁
    cases hd₁
    exact h₁

end Find

/-! ## The class that an entry was encoded from -/

/-- The entries of the class `d`. -/
def CfgMem.hackCfgsOf (cfg : CfgMem) (d : Nat) : List HackCfg :=
  (cfg.dynmems[d]?).elim [] (·.hackCfgs)

/-- For each entry the class and the position there. -/
def CfgMem.origins (cfg : CfgMem) : List (Nat × Nat) :=
  (classRefs none cfg.entries).flatMap fun d =>
    (List.range (cfg.hackCfgsOf d).length).map (d, ·)

/-- An entry of the concatenation is one of its parts. -/
theorem flatMap_origin {α β : Type} (f : α → List β) (l : List α) : ∀ (i : Nat) (b : β),
    (l.flatMap f)[i]? = some b → ∃ x j, x ∈ l ∧ (f x)[j]? = some b ∧
      (l.flatMap fun x => (List.range (f x).length).map (x, ·))[i]? = some (x, j) := by
  induction l with
  | nil => intro i b h; simp at h
  | cons x l ih =>
    intro i b h
    rw [List.flatMap_cons] at h ⊢
    have hlen : ((List.range (f x).length).map (x, ·)).length = (f x).length := by simp
    by_cases hi : i < (f x).length
    · rw [List.getElem?_append_left hi] at h
      refine ⟨x, i, List.mem_cons_self, h, ?_⟩
      rw [List.getElem?_append_left (by rwa [hlen])]
      simp [hi]
    · rw [List.getElem?_append_right (by omega)] at h
      obtain ⟨y, j, hy, hb, horigin⟩ := ih _ b h
      refine ⟨y, j, List.mem_cons_of_mem _ hy, hb, ?_⟩
      rw [List.getElem?_append_right (by omega), hlen]
      exact horigin

theorem hackCfgs_eq (cfg : CfgMem) :
    cfg.hackCfgs = (classRefs none cfg.entries).flatMap cfg.hackCfgsOf := by
  unfold CfgMem.hackCfgs CfgMem.classes
  induction classRefs none cfg.entries with
  | nil => rfl
  | cons d refs ih =>
    rw [List.flatMap_cons, CfgMem.hackCfgsOf]
    cases hd : cfg.dynmems[d]? with
    | none => rw [List.filterMap_cons_none hd, ih]; rfl
    | some dm => rw [List.filterMap_cons_some hd, List.flatMap_cons, ih]; rfl

/-- Every entry comes from a class of the config. -/
theorem origin_of_hackCfgs {cfg : CfgMem} {i : Nat} {c : HackCfg}
    (h : cfg.hackCfgs[i]? = some c) : ∃ d j dm, cfg.origins[i]? = some (d, j) ∧
      cfg.dynmems[d]? = some dm ∧ Refs cfg.entries d ∧ dm.hackCfgs[j]? = some c := by
  rw [hackCfgs_eq] at h
  obtain ⟨d, j, hd, hj, horigin⟩ := flatMap_origin _ _ i c h
  unfold CfgMem.hackCfgsOf at hj
  cases hdm : cfg.dynmems[d]? with
  | none => rw [hdm] at hj; simp at hj
  | some dm =>
    rw [hdm] at hj
    exact ⟨d, j, dm, horigin, hdm, mem_classRefs hd, hj⟩

/-- Size and code address of an entry are those of the class or of a constructor; its growth rule
is the one of the class. -/
theorem hackCfgs_getElem? {dm : DynMemEntry} {j : Nat} {c : HackCfg}
    (h : dm.hackCfgs[j]? = some c) :
    (∃ es, dm.essentials[j]? = some es ∧ c.memSize = es.memSize ∧ c.codeAddr = es.codeAddr) ∧
      ∀ g ∈ c.grow, ∃ grow ∈ dm.grow, g.codeAddr = grow.codeAddr := by
  have hattach : ∀ (grow : Option HackGrow) (cfgs : List HackCfg),
      (∀ c' ∈ cfgs, c'.grow = none) → ∀ (j : Nat) (c : HackCfg),
      (attachGrow grow cfgs)[j]? = some c → (∃ c', cfgs[j]? = some c' ∧
        c.memSize = c'.memSize ∧ c.codeAddr = c'.codeAddr) ∧ ∀ g ∈ c.grow, g ∈ grow := by
    intro grow cfgs
    induction cfgs with
    | nil => intro _ j c h; simp [attachGrow] at h
    | cons c₀ cfgs ih =>
      intro hno j c h
      cases cfgs with
      | nil =>
        cases j with
        | zero =>
          obtain rfl : { c₀ with grow := grow } = c := by simpa [attachGrow] using h
          exact ⟨⟨c₀, rfl, rfl, rfl⟩, fun g hg => hg⟩
        | succ j => simp [attachGrow] at h
      | cons c₁ cfgs =>
        cases j with
        | zero =>
          obtain rfl : c₀ = c := by simpa [attachGrow] using h
          refine ⟨⟨c₀, rfl, rfl, rfl⟩, fun g hg => ?_⟩
          rw [hno c₀ (by simp)] at hg
          cases hg
        | succ j =>
          rw [attachGrow, List.getElem?_cons_succ] at h
          rw [List.getElem?_cons_succ]
          exact ih (fun c hc => hno c (by simp [hc])) j c h
  have hno : ∀ c' ∈ dm.essentials.map (·.hackCfg), c'.grow = none := by
    intro c' hc'
    obtain ⟨es, -, rfl⟩ := List.mem_map.mp hc'
    rfl
  obtain ⟨⟨c', hc', hsize, hcode⟩, hgrow⟩ := hattach _ _ hno j c h
  rw [List.getElem?_map] at hc'
  obtain ⟨es, hes, rfl⟩ := Option.map_eq_some_iff.mp hc'
  refine ⟨⟨es, hes, hsize, hcode⟩, fun g hg => ?_⟩
  obtain ⟨grow, hgrow', rfl⟩ := Option.map_eq_some_iff.mp (hgrow g hg)
  exact ⟨grow, hgrow', rfl⟩

/-! ## What libmemhack reports -/

/-- The entry that an allocation is reported for selects it with the code address reported. -/
theorem postprocessMalloc_selects {c : Caller} {size : SizeT} {config : List HackCfg} :
    ∀ {i : Nat} {a : Ptr}, postprocessMalloc c size config = some (i, a) →
      ∃ hc, config[i]? = some hc ∧ ((size = hc.memSize ∧ a = hc.codeAddr) ∨
        (size ≠ hc.memSize ∧ ∃ g ∈ hc.grow, a = g.codeAddr)) := by
  induction config with
  | nil => intro i a h; cases h
  | cons hc config ih =>
    intro i a h
    have hrest : (postprocessMalloc c size config).map (fun p => (p.1 + 1, p.2)) = some (i, a) →
        ∃ hc', (hc :: config)[i]? = some hc' ∧ ((size = hc'.memSize ∧ a = hc'.codeAddr) ∨
          (size ≠ hc'.memSize ∧ ∃ g ∈ hc'.grow, a = g.codeAddr)) := by
      intro h
      obtain ⟨⟨i', a'⟩, h', heq⟩ := Option.map_eq_some_iff.mp h
      cases heq
      exact ih h'
    rw [postprocessMalloc] at h
    cases hsel : hc.selects size with
    | none => rw [hsel] at h; exact hrest h
    | some sel =>
      obtain ⟨codeAddr, stackOffs⟩ := sel
      rw [hsel] at h
      simp only at h
      split at h
      · cases h
        refine ⟨hc, rfl, ?_⟩
        unfold HackCfg.selects at hsel
        split at hsel
        · rename_i hsize
          cases hsel
          exact Or.inl ⟨hsize, rfl⟩
        · rename_i hsize
          refine Or.inr ⟨hsize, ?_⟩
          cases hg : hc.grow with
          | none => rw [hg] at hsel; cases hsel
          | some grow =>
            rw [hg] at hsel
            refine ⟨grow, rfl, ?_⟩
            cases hty : grow.type with
            | mul => simp only [hty] at hsel; split_ifs at hsel; cases hsel; rfl
            | add => simp only [hty] at hsel; split_ifs at hsel; cases hsel; rfl
      · exact hrest h

/-! ## Attribution -/

section Attribution

variable {cfg : CfgMem} {config : List HackCfg}

/-- The entry of libmemhack is the one that was encoded, and the code addresses it holds are those
of ugtrain. -/
structure HackCfg.Agrees (c c' : HackCfg) : Prop where
  memSize : c.memSize = c'.memSize
  codeAddr : c.codeAddr ≠ 0 → c.codeAddr = c'.codeAddr
  grow : ∀ g ∈ c.grow, ∃ g' ∈ c'.grow, g.codeAddr ≠ 0 → g.codeAddr = g'.codeAddr

/-- **When an object goes to the class `d`.** -/
structure CfgMem.Attributes (cfg : CfgMem) (d j : Nat) (dm : DynMemEntry) (size : SizeT)
    (a : Ptr) : Prop where
  /-- A constructor of a class with a growth rule is found if it has the address of the class or
  of the growth rule. So is an item without a code address. -/
  own : a = 0 ∨ (j ≠ 0 ∧ dm.grow.isSome ∧ ∃ es, dm.essentials[j]? = some es ∧ es.memSize = size) →
    dm.accepts a = true
  /-- No class before takes the address. -/
  first : ∀ d' dm', Refs cfg.entries d' → d' < d → cfg.dynmems[d']? = some dm' →
    dm'.accepts a = false

/-- The class takes an address of its own, apart from constructors next to a growth rule. -/
theorem accepts_own {dm : DynMemEntry} {j : Nat} {es : DynMemEssentials}
    (hes : dm.essentials[j]? = some es) (h : j = 0 ∨ dm.grow = none) :
    dm.accepts es.codeAddr = true := by
  unfold DynMemEntry.accepts
  rcases h with rfl | hg
  · obtain rfl : dm.toDynMemEssentials = es := by simpa [DynMemEntry.essentials] using hes
    cases dm.grow <;> simp
  · rw [hg]
    rcases List.mem_cons.mp (List.mem_of_getElem? hes) with rfl | hmem
    · simp
    · simp only [Bool.or_eq_true, List.any_eq_true, decide_eq_true_eq]
      exact Or.inr ⟨es, hmem, rfl⟩

theorem accepts_grow {dm : DynMemEntry} {grow : GrowEntry} (h : grow ∈ dm.grow) :
    dm.accepts grow.codeAddr = true := by
  have hg : dm.grow = some grow := h
  simp [DynMemEntry.accepts, hg]

/-- The object is appended to the class `d` exactly if this is the class that is found. -/
theorem allocDynmemAddr_eq_iff {d : Nat} {dm : DynMemEntry} (hd : cfg.dynmems[d]? = some dm)
    (memAddr : Ptr) (size : SizeT) (a : Ptr) :
    allocDynmemAddr cfg.entries memAddr size a cfg.dynmems =
        cfg.dynmems.set d (dm.pushObj memAddr size) ↔
      findDynmem cfg.dynmems (·.accepts a) cfg.entries = some (d, dm) := by
  have hlt := (List.getElem?_eq_some_iff.mp hd).1
  have hpush : dm.pushObj memAddr size ≠ dm := by
    intro heq
    have := congrArg (·.vMaddr.length) heq
    simp [DynMemEntry.pushObj] at this
  unfold allocDynmemAddr
  constructor
  · intro h
    cases hf : findDynmem cfg.dynmems (·.accepts a) cfg.entries with
    | none =>
      rw [hf] at h
      have hget := congrArg (·[d]?) h
      simp only [hd, List.getElem?_set_self hlt, Option.some.injEq] at hget
      exact absurd hget.symm hpush
    | some x =>
      obtain ⟨d', dm'⟩ := x
      rw [hf] at h
      have hd' := (findDynmem_eq_some hf).1
      by_cases hne : d' = d
      · subst hne
        rw [hd] at hd'
        rw [Option.some.inj hd']
      · have hget := congrArg (·[d]?) h
        simp only [List.getElem?_set_ne hne, hd, List.getElem?_set_self hlt,
          Option.some.injEq] at hget
        exact absurd hget.symm hpush
  · intro h
    rw [h]

/-- **Attribution.** An allocation that libmemhack reports for an entry goes to the class that the
entry was encoded from, exactly if this class takes the address as the first one. -/
theorem attribution_iff (h : cfg.WellFormed) (hagree : List.Forall₂ HackCfg.Agrees config cfg.hackCfgs)
    {c : Caller} {size : SizeT} (memAddr : Ptr) {i : Nat} {a : Ptr}
    (hp : postprocessMalloc c size config = some (i, a)) :
    ∃ d j dm, cfg.origins[i]? = some (d, j) ∧ cfg.dynmems[d]? = some dm ∧
      (allocDynmemAddr cfg.entries memAddr size a cfg.dynmems =
          cfg.dynmems.set d (dm.pushObj memAddr size) ↔ cfg.Attributes d j dm size a) := by
  obtain ⟨hc, hi, hsel⟩ := postprocessMalloc_selects hp
  obtain ⟨hc', hi', hag⟩ : ∃ hc', cfg.hackCfgs[i]? = some hc' ∧ hc.Agrees hc' := by
    have hlt := (List.getElem?_eq_some_iff.mp hi).1
    have hlt' : i < cfg.hackCfgs.length := by rwa [← hagree.length_eq]
    refine ⟨_, List.getElem?_eq_getElem hlt', ?_⟩
    have hget := (List.forall₂_iff_get.mp hagree).2 i hlt hlt'
    rwa [List.get_eq_getElem, List.get_eq_getElem, (List.getElem?_eq_some_iff.mp hi).2] at hget
  obtain ⟨d, j, dm, horigin, hd, hr, hj⟩ := origin_of_hackCfgs hi'
  refine ⟨d, j, dm, horigin, hd, ?_⟩
  rw [allocDynmemAddr_eq_iff hd, findDynmem_eq_some_iff h.sorted]
  constructor
  · rintro ⟨-, -, hacc, hfirst⟩
    exact ⟨fun _ => hacc, hfirst⟩
  · rintro ⟨hown, hfirst⟩
    refine ⟨hr, hd, ?_, hfirst⟩
    obtain ⟨⟨es, hes, hsize, hcode⟩, hgrow⟩ := hackCfgs_getElem? hj
    by_cases ha : a = 0
    · exact hown (Or.inl ha)
    · rcases hsel with ⟨hs, rfl⟩ | ⟨-, g, hg, rfl⟩
      · -- The entry itself was selected.
        have haddr : hc.codeAddr = es.codeAddr := (hag.codeAddr ha).trans hcode
        by_cases hconst : j = 0 ∨ dm.grow = none
        · rw [haddr]
          exact accepts_own hes hconst
        · obtain ⟨hj0, hg⟩ := not_or.mp hconst
          refine hown (Or.inr ⟨hj0, Option.isSome_iff_ne_none.mpr hg, es, hes, ?_⟩)
          rw [hs, hag.memSize, hsize]
      · -- The growth rule was selected.
        obtain ⟨g', hg', haddr⟩ := hag.grow g hg
        obtain ⟨grow, hgr, heq⟩ := hgrow g' hg'
        rw [haddr ha, heq]
        exact accepts_grow hgr

end Attribution

/-! ## A class with a growth rule -/

theorem HackCfg.Agrees.refl (c : HackCfg) : c.Agrees c :=
  ⟨rfl, fun _ => rfl, fun g hg => ⟨g, hg, fun _ => rfl⟩⟩

/-- An allocation from a code address, found by its backtrace. -/
def Caller.fromCode (codeAddr : Ptr) : Caller := ⟨0, 0, fun _ => 0, true, [0x10, codeAddr]⟩

/-- The constructor of the first class. -/
theorem attribution_iff_example : ∃ c d j dm,
    ConfigState.readConfig CfgReader.noFloats 8 0 "game.conf".toList none ConfigState.threeClasses =
        some (.ok c) ∧ c.opt.origins[1]? = some (d, j) ∧ c.opt.dynmems[d]? = some dm ∧
      (allocDynmemAddr c.opt.entries 0x20 64 0x500 c.opt.dynmems =
          c.opt.dynmems.set d (dm.pushObj 0x20 64) ↔ c.opt.Attributes d j dm 64 0x500) := by
  obtain ⟨c, hread, hc⟩ := ConfigState.exists_read ConfigState.threeClasses
    (fun c => decide (postprocessMalloc (.fromCode 0x500) 64 c.opt.hackCfgs = some (1, 0x500)))
    (by decide +kernel)
  obtain ⟨d, j, dm, horigin, hd, hiff⟩ := attribution_iff (ConfigState.readConfig_wellFormed hread)
    (List.forall₂_same.mpr fun c _ => HackCfg.Agrees.refl c) 0x20 (of_decide_eq_true hc)
  exact ⟨c, d, j, dm, hread, horigin, hd, hiff⟩

/-- The constructor of a class with a growth rule: libmemhack reports its allocations, and ugtrain
drops them. -/
theorem attribution_dropped :
    (CfgMem.single .growConst).WellFormed ∧
      postprocessMalloc (.fromCode 0x500) 64 (CfgMem.single .growConst).hackCfgs =
        some (1, 0x500) ∧
      (CfgMem.single .growConst).origins[1]? = some (0, 1) ∧
      allocDynmemAddr (CfgMem.single .growConst).entries 0x20 64 0x500
        (CfgMem.single .growConst).dynmems = (CfgMem.single .growConst).dynmems :=
  ⟨single_wellFormed (by decide) (by decide) (by decide), by decide, by decide, by decide⟩

end UgTrain
