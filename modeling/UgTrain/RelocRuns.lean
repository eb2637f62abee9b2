import UgTrain.RelocAddr

/-!
# Null pointers in the relocation

The relocations in any order and number: libraries are found one after the other, and the end of the
stack comes later. A relocation follows the cache of each item that it moves, and, for a check in a
library, the library of its entry. `run_reloc_iff`: which configs have these.
-/

namespace UgTrain

open CLib

/-! ## One pass -/

section Pass

variable {p : Pass} {en : CfgEntry} {cfg : List CfgEntry} {caches : Caches}

theorem Pass.relocChecks_total {chks : List CheckEntry} (caches : Caches)
    (h : ∀ chk ∈ chks, p.Ok en.type chk.item) :
    ∃ caches', p.relocChecks en chks caches = .ok (chks.map (p.applyCheck en.type), caches') := by
  induction chks generalizing caches with
  | nil => exact ⟨caches, rfl⟩
  | cons chk chks ih =>
    obtain ⟨o, ho, hcache⟩ := h chk List.mem_cons_self
    have ho : p en.type chk.type = .ok o := ho
    have hrest := fun caches => ih caches fun c hc => h c (List.mem_cons_of_mem _ hc)
    rw [Pass.relocChecks, Pass.relocCheck, ho, List.map_cons, Pass.applyCheck, ho]
    cases o with
    | none =>
      obtain ⟨caches', h'⟩ := hrest caches
      exact ⟨caches', by simp [pure, Except.pure, h']⟩
    | some m =>
      obtain ⟨r, hr⟩ := Option.ne_none_iff_exists'.mp (hcache rfl)
      have hr : chk.cache = some r := hr
      obtain ⟨caches', h'⟩ := hrest (caches.modify r fun c =>
        if c.isDirty then c else { c with isDirty := true, offs := m.offs c.offs })
      exact ⟨caches', by simp [pure, Except.pure, moveCache, hr, h']⟩

theorem Pass.relocItems_total (hs : en.isStatic = true) (caches : Caches)
    (h : ∀ it ∈ en.items, p.Ok en.type it) :
    ∃ caches', p.relocItems en caches = .ok (p.apply en, caches') := by
  -- the entry itself
  obtain ⟨en', caches₁, hentry, hchecks, happly⟩ : ∃ en' caches₁,
      p.relocEntry en caches = .ok (en', caches₁) ∧ en'.checks = en.checks ∧
        p.apply en = { en' with checks := en.checks.map (·.map (p.applyCheck en.type)) } := by
    obtain ⟨o, ho, hcache⟩ := h _ List.mem_cons_self
    have ho : p en.type en.type = .ok o := ho
    rw [Pass.relocEntry, Pass.apply, if_pos hs, ho]
    cases o with
    | none => exact ⟨en, caches, rfl, rfl, rfl⟩
    | some m =>
      obtain ⟨r, hr⟩ := Option.ne_none_iff_exists'.mp (hcache rfl)
      have hr : en.cache = some r := hr
      refine ⟨{ en with addr := m.addr en.addr, type := m.type }, caches.modify r fun c =>
        if c.isDirty then c else { c with isDirty := true, offs := m.offs c.offs }, ?_, rfl, rfl⟩
      simp only [hr, moveCache, Run.ok_bind, pure, Except.pure]
  rw [Pass.relocItems, hentry, happly, Run.ok_bind]
  cases hc : en.checks with
  | none =>
    have hself : { en' with checks := none } = en' := by rw [← hc, ← hchecks]
    exact ⟨caches₁, by rw [Option.map_none, hself]; rfl⟩
  | some chks =>
    obtain ⟨caches', h'⟩ := Pass.relocChecks_total (p := p) caches₁ fun chk hm =>
      h chk.item (List.mem_cons_of_mem _ (List.mem_map_of_mem (by simpa [hc] using hm)))
    exact ⟨caches', by simp [h', pure, Except.pure]⟩

/-- **A pass returns** exactly if it follows no null pointer. -/
theorem Pass.relocEntries_isOk :
    (∃ res, p.relocEntries cfg caches = .ok res ∧ res.1 = cfg.map p.apply) ↔
      ∀ en ∈ cfg, en.isStatic = true → ∀ it ∈ en.items, p.Ok en.type it := by
  refine ⟨fun ⟨res, h, _⟩ => Pass.relocEntries_ok h, fun h => ?_⟩
  induction cfg generalizing caches with
  | nil => exact ⟨_, rfl, rfl⟩
  | cons en cfg ih =>
    have ih := fun caches => @ih caches fun en hen => h en (List.mem_cons_of_mem _ hen)
    rw [Pass.relocEntries]
    by_cases hs : en.isStatic = true
    · obtain ⟨caches₁, h₁⟩ := Pass.relocItems_total hs caches (h en List.mem_cons_self hs)
      obtain ⟨res, hres, heq⟩ := ih caches₁
      simp only [if_pos hs, h₁, Run.ok_bind, hres]
      exact ⟨_, rfl, by rw [List.map_cons, ← heq]⟩
    · obtain ⟨res, hres, heq⟩ := ih caches
      have happ : p.apply en = en := by rw [Pass.apply, if_neg hs]
      simp only [if_neg hs, Run.ok_bind, hres]
      exact ⟨_, rfl, by rw [List.map_cons, happ, ← heq]⟩

end Pass

/-! ## Runs -/

/-- A relocation: of the executable, of the libraries found in a list of regions, of the stack. -/
inductive RelocOp where
  | pie
  | pic (rlist : List Region) (latePic : Bool)
  | stackEnd (addr : Ptr)

def Options.reloc (opt : Options) : RelocOp → Except Fault Options
  | .pie => handleStatmemPie opt
  | .pic rlist latePic =>
    handleStatmemPic { opt with libs := findLibRegions rlist opt.libs } latePic
  | .stackEnd addr => processStackEnd { opt with stackEnd := addr }

/-- The relocation moves items of this type. -/
def Options.Moves (opt : Options) (type : VType) : RelocOp → Prop
  | .pie => type.onStack = false ∧ type.lib = none
  | .pic rlist _ => ∃ l lit, type.lib = some l ∧ (findLibRegions rlist opt.libs)[l]? = some lit ∧
      lit.start ≠ 0 ∧ lit.isLoaded = false
  | .stackEnd _ => opt.valOnStack = true ∧ type.onStack = true

/-- The library of the entry is followed for its checks in libraries. -/
def Options.HasLib (opt : Options) (type : VType) : RelocOp → Prop
  | .pic rlist _ => ∃ l lit, type.lib = some l ∧ (findLibRegions rlist opt.libs)[l]? = some lit
  | _ => True

/-- No text moves, no check of a text, no check of the value of another entry, and no check in a
library whose entry is in none. -/
def Options.Movable (opt : Options) (op : RelocOp) : Prop :=
  ∀ en ∈ opt.entries, en.isStatic = true →
    (opt.Moves en.type op → en.type.isCstr = false) ∧
    ∀ chk ∈ en.checks.getD [], opt.Moves chk.type op →
      en.type.isCstr = false ∧ chk.cfgRef = none ∧ opt.HasLib en.type op

/-- Which items have no cache. -/
def Options.NoCaches (opt : Options) : Prop :=
  ∀ en ∈ opt.entries, (en.cache = none ↔ en.type.isCstr = true) ∧
    ∀ chk ∈ en.checks.getD [], (chk.cache = none ↔ en.type.isCstr = true ∨ chk.cfgRef ≠ none)

section Runs

variable {chunk : Nat} {p : Pass} {opt opt' : Options} {op : RelocOp}

theorem Options.Built.noCaches (h : opt.Built chunk) : opt.NoCaches := by
  refine fun en hen => ⟨⟨fun hc => ?_, h.entry_cstr en hen⟩, fun chk hchk =>
    ⟨fun hc => ?_, h.check_none en hen chk hchk⟩⟩
  · by_contra hne
    obtain ⟨r, hr, -⟩ := h.entry en hen (by simpa using hne)
    rw [hc] at hr
    cases hr
  · by_contra hno
    obtain ⟨hne, href⟩ := not_or.mp hno
    obtain ⟨r, hr, -⟩ := h.check en hen chk hchk (by simpa using hne) (by simpa using href)
    rw [hc] at hr
    cases hr

/-- A pass changes no type to or from text. -/
def Pass.KeepsCstr (p : Pass) : Prop :=
  ∀ enType type m, p enType type = .ok (some m) → m.type.isCstr = type.isCstr

theorem Pass.KeepsType.cstr (h : p.KeepsType) : p.KeepsCstr :=
  fun enType type m hm => congrArg VType.isCstr (h enType type m hm)

theorem keepsCstr_stack (stackEnd : Ptr) : (stackPass stackEnd).KeepsCstr := by
  intro enType type m h
  rw [stackPass_moves] at h
  split at h <;> cases h
  rfl

theorem apply_fields (hk : p.KeepsCstr) (en : CfgEntry) :
    (p.apply en).cache = en.cache ∧ (p.apply en).type.isCstr = en.type.isCstr ∧
      ∀ chk' ∈ (p.apply en).checks.getD [], ∃ chk ∈ en.checks.getD [],
        chk'.cache = chk.cache ∧ chk'.cfgRef = chk.cfgRef := by
  have hcheck : ∀ chk, (p.applyCheck en.type chk).cache = chk.cache ∧
      (p.applyCheck en.type chk).cfgRef = chk.cfgRef := by
    intro chk
    unfold Pass.applyCheck
    split <;> exact ⟨rfl, rfl⟩
  have hchecks : ∀ chk' ∈ (en.checks.map (·.map (p.applyCheck en.type))).getD [],
      ∃ chk ∈ en.checks.getD [], chk'.cache = chk.cache ∧ chk'.cfgRef = chk.cfgRef := by
    intro chk' hchk'
    cases hc : en.checks with
    | none => simp [hc] at hchk'
    | some chks =>
      rw [hc, Option.map_some, Option.getD_some] at hchk'
      obtain ⟨chk, hchk, rfl⟩ := List.mem_map.mp hchk'
      exact ⟨chk, hchk, hcheck chk⟩
  unfold Pass.apply
  split
  · split
    · rename_i m hm
      exact ⟨rfl, hk _ _ m hm, hchecks⟩
    · exact ⟨rfl, rfl, hchecks⟩
  · exact ⟨rfl, rfl, fun chk hchk => ⟨chk, hchk, rfl, rfl⟩⟩

theorem noCaches_apply (hk : p.KeepsCstr) (h : opt.NoCaches)
    (he : opt'.entries = opt.entries.map p.apply) : opt'.NoCaches := by
  intro en' hen'
  rw [he] at hen'
  obtain ⟨en, hen, rfl⟩ := List.mem_map.mp hen'
  obtain ⟨hcache, hcstr, hchecks⟩ := apply_fields hk en
  refine ⟨by rw [hcache, hcstr]; exact (h en hen).1, fun chk' hchk' => ?_⟩
  obtain ⟨chk, hchk, hc, href⟩ := hchecks chk' hchk'
  rw [hc, href, hcstr]
  exact (h en hen).2 chk hchk

/-- What it takes that a pass moves what is to be moved. -/
theorem forall_items_ok {M : VType → Prop} {L : VType → Prop} (h : opt.NoCaches)
    (hok : ∀ en ∈ opt.entries, ∀ it ∈ en.items, p.Ok en.type it ↔
      (M it.type → it.cache ≠ none ∧ L en.type)) (hself : ∀ type, M type → L type) :
    (∀ en ∈ opt.entries, en.isStatic = true → ∀ it ∈ en.items, p.Ok en.type it) ↔
      ∀ en ∈ opt.entries, en.isStatic = true → (M en.type → en.type.isCstr = false) ∧
        ∀ chk ∈ en.checks.getD [], M chk.type →
          en.type.isCstr = false ∧ chk.cfgRef = none ∧ L en.type := by
  refine forall₂_congr fun en hen => imp_congr_right fun _ => ?_
  obtain ⟨hcache, hchk⟩ := h en hen
  have hitems : (∀ it ∈ en.items, p.Ok en.type it) ↔ (M en.type → en.cache ≠ none ∧ L en.type) ∧
      ∀ chk ∈ en.checks.getD [], M chk.type → chk.cache ≠ none ∧ L en.type := by
    rw [forall₂_congr (hok en hen)]
    unfold CfgEntry.items
    rw [List.forall_mem_cons, List.forall_mem_map]
    rfl
  rw [hitems]
  refine and_congr (imp_congr_right fun hm => ?_) (forall₂_congr fun chk hm =>
    imp_congr_right fun _ => ?_)
  · rw [Ne, hcache, Bool.not_eq_true]
    exact and_iff_left (hself _ hm)
  · rw [Ne, hchk chk hm, not_or, Bool.not_eq_true, not_not, and_assoc]

theorem pie_ok {codeOffs : Ptr} {t : VType} {it : StaticItem} : (piePass codeOffs).Ok t it ↔
    (it.type.onStack = false ∧ it.type.lib = none → it.cache ≠ none ∧ True) := by
  unfold Pass.Ok
  rw [piePass_moves]
  split
  · rename_i hm
    simp [hm]
  · rename_i hm
    exact iff_of_true ⟨none, rfl, by simp⟩ fun h => absurd h hm

theorem stack_ok {stackEnd : Ptr} {t : VType} {it : StaticItem} : (stackPass stackEnd).Ok t it ↔
    (it.type.onStack = true → it.cache ≠ none ∧ True) := by
  unfold Pass.Ok
  rw [stackPass_moves]
  cases it.type.onStack <;> simp

theorem pic_ok {libs : List LibEntry} {t : VType} {it : StaticItem} : (picPass libs).Ok t it ↔
    ((∃ l lit, it.type.lib = some l ∧ libs[l]? = some lit ∧ lit.start ≠ 0 ∧ lit.isLoaded = false) →
      it.cache ≠ none ∧ ∃ l lit, t.lib = some l ∧ libs[l]? = some lit) := by
  have hnew : (newLib libs it.type.lib).isSome ↔ ∃ l lit, it.type.lib = some l ∧
      libs[l]? = some lit ∧ lit.start ≠ 0 ∧ lit.isLoaded = false := by
    unfold newLib
    cases it.type.lib with
    | none => simp
    | some l =>
      cases hget : libs[l]? with
      | none => simp [hget]
      | some lit =>
        by_cases h0 : lit.start = 0 <;> cases hload : lit.isLoaded <;> simp_all
  rw [← hnew]
  unfold Pass.Ok picPass
  cases hn : newLib libs it.type.lib with
  | none => simp
  | some x =>
    cases ht : t.lib with
    | none => simp
    | some l =>
      cases hget : libs[l]? with
      | none => simp [hget]
      | some lit => simp [hget]

/-- A relocation that is one pass. -/
theorem pass_step (opt : Options) {x : Except Fault Options} {fin : List CfgEntry × Caches → Options}
    (hx : x = (p.relocEntries opt.entries opt.caches).bind fun res => .ok (fin res))
    (hfin : ∀ res, (fin res).entries = res.1) (hk : p.KeepsCstr) (h : opt.NoCaches) :
    ((∃ opt', x = .ok opt') ↔
      ∀ en ∈ opt.entries, en.isStatic = true → ∀ it ∈ en.items, p.Ok en.type it) ∧
    ∀ opt', x = .ok opt' → opt'.NoCaches := by
  have hout : ∀ opt', x = .ok opt' →
      (∀ en ∈ opt.entries, en.isStatic = true → ∀ it ∈ en.items, p.Ok en.type it) ∧
        opt'.entries = opt.entries.map p.apply := by
    intro opt' heq
    rw [hx] at heq
    obtain ⟨res, hres, heq⟩ := Run.bind_eq_ok.mp heq
    cases heq
    have hok := Pass.relocEntries_ok hres
    obtain ⟨res', hres', hmap⟩ := Pass.relocEntries_isOk.mpr hok
    cases hres.symm.trans hres'
    exact ⟨hok, (hfin res).trans hmap⟩
  refine ⟨⟨fun ⟨opt', heq⟩ => (hout opt' heq).1, fun hok => ?_⟩,
    fun opt' heq => noCaches_apply hk h (hout opt' heq).2⟩
  obtain ⟨res, hres, -⟩ := Pass.relocEntries_isOk.mpr hok
  exact ⟨fin res, by rw [hx, hres]; rfl⟩

/-- **One relocation** returns exactly if everything that it moves is movable. -/
theorem reloc_step (h : opt.NoCaches) (op : RelocOp) :
    ((∃ opt', opt.reloc op = .ok opt') ↔ opt.Movable op) ∧
      ∀ opt', opt.reloc op = .ok opt' → opt'.NoCaches := by
  cases op with
  | pie =>
    obtain ⟨hiff, hkeep⟩ := pass_step opt (x := handleStatmemPie opt) rfl (fun _ => rfl)
      (keepsType_pie opt.codeOffs).cstr h
    refine ⟨hiff.trans ?_, hkeep⟩
    exact forall_items_ok h (M := fun type => type.onStack = false ∧ type.lib = none)
      (fun _ _ _ _ => pie_ok) fun _ _ => trivial
  | pic rlist latePic =>
    obtain ⟨hiff, hkeep⟩ := pass_step { opt with libs := findLibRegions rlist opt.libs }
      (x := handleStatmemPic { opt with libs := findLibRegions rlist opt.libs } latePic) rfl
      (fun _ => rfl) (keepsType_pic (findLibRegions rlist opt.libs)).cstr h
    refine ⟨hiff.trans ?_, hkeep⟩
    refine forall_items_ok h (M := fun type => opt.Moves type (.pic rlist latePic))
      (L := fun type => opt.HasLib type (.pic rlist latePic)) (fun _ _ _ _ => pic_ok) ?_
    rintro type ⟨l, lit, hl, hget, -⟩
    exact ⟨l, lit, hl, hget⟩
  | stackEnd addr =>
    cases hv : opt.valOnStack with
    | false =>
      have heq : opt.reloc (.stackEnd addr) = .ok { opt with stackEnd := addr } := by
        simp [Options.reloc, processStackEnd, hv]
      rw [heq]
      refine ⟨iff_of_true ⟨_, rfl⟩ fun en _ _ => ?_, fun opt' h' => by cases h'; exact h⟩
      simp [Options.Moves, hv]
    | true =>
      have heq : opt.reloc (.stackEnd addr) =
          ((stackPass addr).relocEntries opt.entries opt.caches).bind fun res => .ok { opt with
            stackEnd := addr
            entries := res.1
            caches := Function.update res.2 .stack ((res.2 .stack).map clearDirty) } := by
        simp only [Options.reloc, processStackEnd, hv, if_true]
        rfl
      obtain ⟨hiff, hkeep⟩ := pass_step opt heq (fun _ => rfl) (keepsCstr_stack addr) h
      refine ⟨hiff.trans ?_, hkeep⟩
      have := forall_items_ok (p := stackPass addr) h (M := fun type => type.onStack = true)
        (L := fun _ => True) (fun _ _ _ _ => stack_ok) fun _ _ => trivial
      simpa only [Options.Movable, Options.Moves, Options.HasLib, hv, true_and] using this

/-- **Null pointers in the relocation.** In every run of relocations, each one follows only caches
that `build_caches` assigned and libraries of the parser, exactly if everything that is moved by it
is movable. -/
theorem run_reloc_iff (h0 : 0 < chunk) (hc : chunk < 2 ^ 64) (opt : Options) (ops : List RelocOp) :
    Run.Always Options.reloc (fun _ => True) (buildCaches chunk opt) ops ↔
      Run.Each Options.reloc Options.Movable (buildCaches chunk opt) ops := by
  refine Run.always_iff_each_of_kept (I := Options.NoCaches) (fun opt op _ h => ?_)
    (fun opt op opt' _ h heq _ => (reloc_step h op).2 opt' heq) trivial
    (buildCaches_built h0 hc opt).noCaches
  rw [← (reloc_step h op).1]
  simp

end Runs

/-- A text of the executable. -/
def CfgEntry.staticText (addr : Ptr) : CfgEntry :=
  { (default : CfgEntry) with
    addr := addr
    type := { (default : VType) with isCstr := true, size := 64 }
    dynval := .watch }

/-- A text of the executable has no cache, but `handle_statmem_pie` follows it. -/
theorem run_reloc_not : ¬ Run.Always Options.reloc (fun _ => True)
    (buildCaches 2048 (.withStack [.staticText 0x10])) [.pie] := by
  rw [run_reloc_iff (by decide) (by decide)]
  intro h
  have hmov := h [] .pie _ List.prefix_rfl rfl
  have hen : ((buildCaches 2048 (.withStack [.staticText 0x10])).entries[0]?).map
      (fun en => (en.isStatic, en.type)) = some (true, (CfgEntry.staticText 0x10).type) := by decide
  obtain ⟨en, he, hview⟩ := Option.map_eq_some_iff.mp hen
  obtain ⟨hs, ht⟩ : en.isStatic = true ∧ en.type = (CfgEntry.staticText 0x10).type := by
    simpa using hview
  have hcstr := (hmov en (List.mem_of_getElem? he) hs).1 (by rw [ht]; exact ⟨rfl, rfl⟩)
  rw [ht] at hcstr
  cases hcstr

theorem movable_of_values {opt : Options} (op : RelocOp)
    (h : ∀ en ∈ opt.entries, en.type.isCstr = false ∧ en.checks = none) : opt.Movable op := by
  intro en hen _
  obtain ⟨hcstr, hchecks⟩ := h en hen
  exact ⟨fun _ => hcstr, fun chk hchk => by simp [hchecks] at hchk⟩

theorem run_reloc_example : Run.Always Options.reloc (fun _ => True)
    (buildCaches 2048 (.withStack [.onStack 0x10])) [.pie, .stackEnd 0x7ffffffff000] := by
  refine (run_reloc_iff (by decide) (by decide) _ _).mpr (Run.each_cons.mpr ⟨?_, fun opt' h => ?_⟩)
  · exact movable_of_values _ (by decide)
  · refine Run.each_cons.mpr ⟨?_, fun _ _ => Run.each_nil⟩
    cases h
    exact movable_of_values _ (by decide)

end UgTrain
