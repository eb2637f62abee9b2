import UgTrain.Passes

/-!
# Relocation of entries and caches

The three relocations in a row (`relocate`), from the caches that `buildCaches` gives. Each of them
is a step (`Options.Step`): the entries get the form that its pass gives them, and the caches of the
items that move are shifted. `relocate_spec`: they return exactly if every item that is to be moved
has a cache, and a check in a library that was found belongs to an entry in a library.
-/

namespace UgTrain

open CLib

/-- The relocation at start: the executable, the libraries found so far, the stack. -/
def relocate (opt : Options) : Except Fault Options := do
  let opt ← handleStatmemPie opt
  let opt ← handleStatmemPic opt false
  processStackEnd opt

/-- The list of caches for a static item. -/
def VType.place (type : VType) : MemType := memTypeOf none none type

def Options.libStart (opt : Options) (l : Nat) : Ptr := (opt.libs[l]?).elim 0 (·.start)

/-- What the config parser gives for static items. -/
structure Options.Parsed (opt : Options) : Prop where
  stack_lib : ∀ en ∈ opt.entries, en.isStatic = true → ∀ it ∈ en.items,
    it.type.onStack = true → it.type.lib = none
  val_on_stack : ∀ en ∈ opt.entries, en.isStatic = true → ∀ it ∈ en.items,
    it.type.onStack = true → opt.valOnStack = true
  not_loaded : ∀ lit ∈ opt.libs, lit.isLoaded = false

/-! ## Caches of static items -/

section Items

variable {chunk : Nat} {opt : Options} {en : CfgEntry} {it : StaticItem} {r : CacheRef}

theorem memType_static (hs : en.isStatic = true) : en.memType = en.type.place ∧
    ∀ chk, en.checkMemType chk = chk.type.place := by
  obtain ⟨hd, hp⟩ : en.dynmem = none ∧ en.ptrmem = none := by
    simpa [CfgEntry.isStatic] using hs
  simp [CfgEntry.memType, CfgEntry.checkMemType, VType.place, hd, hp]

/-- The cache of a static item is in the list of its type, and gives its address. -/
theorem Options.Built.item (hb : opt.Built chunk) (hen : en ∈ opt.entries)
    (hs : en.isStatic = true) (hit : it ∈ en.items) (hr : it.cache = some r) :
    r.mem = it.type.place ∧ ∃ c, opt.caches.get? r = some c ∧ c.offs + it.cacheData = it.addr ∧
      it.cacheData.toNat < chunk := by
  have hcached : ∃ size, Cached chunk opt.caches it.type.place it.addr size r it.cacheData := by
    rcases List.mem_cons.mp hit with rfl | hit
    · have hr : en.cache = some r := hr
      cases hc : en.type.isCstr with
      | true => rw [hb.entry_cstr en hen hc] at hr; cases hr
      | false =>
        obtain ⟨r', hr', h⟩ := hb.entry en hen hc
        rw [hr] at hr'
        cases hr'
        rw [(memType_static hs).1] at h
        exact ⟨_, h⟩
    · obtain ⟨chk, hchk, rfl⟩ := List.mem_map.mp hit
      have hr : chk.cache = some r := hr
      by_cases hno : en.type.isCstr = true ∨ chk.cfgRef ≠ none
      · rw [hb.check_none en hen chk hchk hno] at hr
        cases hr
      · obtain ⟨hc, href⟩ := not_or.mp hno
        obtain ⟨r', hr', h⟩ := hb.check en hen chk hchk (by simpa using hc) (by simpa using href)
        rw [hr] at hr'
        cases hr'
        obtain ⟨hd, hp⟩ : en.dynmem = none ∧ en.ptrmem = none := by
          simpa [CfgEntry.isStatic] using hs
        have h := h fun _ => ⟨hd, hp⟩
        rw [(memType_static hs).2] at h
        exact ⟨_, h⟩
  obtain ⟨size, hmem, c, hget, haddr, hlt, -⟩ := hcached
  exact ⟨hmem, c, hget, haddr, hlt⟩

theorem Options.Built.clean (hb : opt.Built chunk) : opt.caches.Clean := by
  intro r c hr
  exact (hb.fresh r.mem c (List.mem_of_getElem? hr)).2.1

theorem place_opt {type : VType} (h : type.onStack = false) (hl : type.lib = none) :
    type.place = .opt := by
  simp [VType.place, memTypeOf, h, hl]

theorem place_lib {type : VType} {l : Nat} (h : type.onStack = false) (hl : type.lib = some l) :
    type.place = .lib l := by
  simp [VType.place, memTypeOf, h, hl]

theorem place_stack {type : VType} (h : type.onStack = true) : type.place = .stack := by
  simp [VType.place, memTypeOf, h]

end Items

/-! ## The three passes -/

section Passes

variable {opt : Options} {enType : VType} {it : StaticItem} {codeOffs stackEnd : Ptr}

theorem piePass_moves {type : VType} : piePass codeOffs enType type = .ok
    (if type.onStack = false ∧ type.lib = none then some ⟨(· + codeOffs), (· + codeOffs), type⟩
      else none) := by
  unfold piePass
  cases type.onStack <;> cases type.lib <;> simp

theorem stackPass_moves {type : VType} : stackPass stackEnd enType type = .ok
    (if type.onStack = true then
      some ⟨(stackEnd - ·), (stackEnd - ·), { type with onStack := false }⟩ else none) := rfl

theorem newLib_eq (hl : ∀ lit ∈ opt.libs, lit.isLoaded = false) (lib : Option Nat) :
    (∀ l, lib = some l → opt.libStart l = 0) ∧ newLib opt.libs lib = none ∨
      ∃ l lit, lib = some l ∧ opt.libs[l]? = some lit ∧ lit.start = opt.libStart l ∧
        opt.libStart l ≠ 0 ∧ newLib opt.libs lib = some (l, lit) := by
  cases lib with
  | none => exact Or.inl ⟨fun l h => (by cases h), rfl⟩
  | some l =>
    cases hget : opt.libs[l]? with
    | none =>
      refine Or.inl ⟨fun l' h => ?_, by simp [newLib, hget]⟩
      cases h
      simp [Options.libStart, hget]
    | some lit =>
      have hstart : opt.libStart l = lit.start := by simp [Options.libStart, hget]
      have hload := hl lit (List.mem_of_getElem? hget)
      by_cases h0 : lit.start = 0
      · refine Or.inl ⟨fun l' h => ?_, by simp [newLib, hget, h0]⟩
        cases h
        rw [hstart, h0]
      · refine Or.inr ⟨l, lit, rfl, hget, hstart.symm, by rwa [hstart], ?_⟩
        have h0' : lit.start ≠ 0#64 := h0
        simp [newLib, hget, h0', hload]

/-- When an item can be moved with the libraries. -/
theorem picPass_ok (hl : ∀ lit ∈ opt.libs, lit.isLoaded = false) :
    (picPass opt.libs).Ok enType it ↔ ∀ l, it.type.lib = some l → opt.libStart l ≠ 0 →
      it.cache ≠ none ∧ ∃ l' lit', enType.lib = some l' ∧ opt.libs[l']? = some lit' := by
  unfold Pass.Ok picPass
  rcases newLib_eq hl it.type.lib with ⟨h0, hnew⟩ | ⟨l, lit, hlib, hget, -, hne, hnew⟩
  · rw [hnew]
    exact iff_of_true ⟨none, rfl, by simp⟩ fun l hlib hne => absurd (h0 l hlib) hne
  · rw [hnew, hlib]
    simp only
    cases hen : enType.lib.bind (opt.libs[·]?) with
    | none =>
      refine iff_of_false (by simp) fun h => ?_
      obtain ⟨-, l', lit', hl', hget'⟩ := h l rfl hne
      simp [hl', hget'] at hen
    | some lit' =>
      obtain ⟨l', hl', hget'⟩ := Option.bind_eq_some_iff.mp hen
      constructor
      · rintro ⟨o, ho, hc⟩ l₁ hl₁ -
        cases ho
        exact ⟨hc rfl, l', lit', hl', hget'⟩
      · intro h
        exact ⟨_, rfl, fun _ => (h l rfl hne).1⟩

/-- How the items of a library that was found move. -/
theorem picPass_eq (hl : ∀ lit ∈ opt.libs, lit.isLoaded = false)
    (hok : (picPass opt.libs).Ok enType it) :
    ((∀ l, it.type.lib = some l → opt.libStart l = 0) ∧
        picPass opt.libs enType it.type = .ok none) ∨
      ∃ l l', it.type.lib = some l ∧ enType.lib = some l' ∧ opt.libStart l ≠ 0 ∧
        picPass opt.libs enType it.type =
          .ok (some ⟨(· + opt.libStart l'), (· + opt.libStart l), it.type⟩) := by
  unfold picPass
  rcases newLib_eq hl it.type.lib with ⟨h0, hnew⟩ | ⟨l, lit, hlib, -, hs, hne, hnew⟩
  · rw [hnew]
    exact Or.inl ⟨h0, rfl⟩
  · obtain ⟨-, l', lit', hl', hget'⟩ := (picPass_ok hl).mp hok l hlib hne
    have hstart' : lit'.start = opt.libStart l' := by simp [Options.libStart, hget']
    rw [hnew, hl']
    refine Or.inr ⟨l, l', hlib, rfl, hne, ?_⟩
    simp [hget', hs, hstart']

end Passes

/-! ## One relocation after the other -/

section Steps

variable {opt opt' : Options} {p : Pass} {g : CacheRef → Ptr → Ptr} {M : MemType → Prop}
  {en : CfgEntry} {it : StaticItem} {r : CacheRef}

/-- The cache of a static item is in the list of its type. -/
def Options.Placed (opt : Options) : Prop :=
  ∀ en ∈ opt.entries, en.isStatic = true → ∀ it ∈ en.items, ∀ r, it.cache = some r →
    r.mem = it.type.place

/-- What a relocation does to the entries and the caches; it moves caches of the lists `M` only. -/
structure Options.Step (p : Pass) (g : CacheRef → Ptr → Ptr) (M : MemType → Prop)
    (opt opt' : Options) : Prop where
  entries : opt'.entries = opt.entries.map p.apply
  caches : opt.caches.Shifted g (p.touched opt.entries) opt'.caches
  valOnStack : opt'.valOnStack = opt.valOnStack
  stackEnd : opt'.stackEnd = opt.stackEnd
  place : ∀ r ∈ p.touched opt.entries, M r.mem

theorem isStatic_apply : (p.apply en).isStatic = en.isStatic := by
  unfold Pass.apply
  split
  · split <;> rfl
  · rfl

@[simp] theorem applyItem_cache {t : VType} : (p.applyItem t it).cache = it.cache ∧
    (p.applyItem t it).cacheData = it.cacheData := by
  unfold Pass.applyItem
  split <;> exact ⟨rfl, rfl⟩

/-- A pass that leaves the types as they are. -/
def Pass.KeepsType (p : Pass) : Prop := ∀ enType type m, p enType type = .ok (some m) → m.type = type

theorem Pass.KeepsType.item (h : p.KeepsType) {t : VType} : (p.applyItem t it).type = it.type := by
  unfold Pass.applyItem
  split
  · rename_i m hm
    exact h _ _ m hm
  · rfl

theorem Pass.KeepsType.entry (h : p.KeepsType) : (p.apply en).type = en.type := by
  unfold Pass.apply
  split
  · split
    · rename_i m hm
      exact h _ _ m hm
    · rfl
  · rfl

theorem keepsType_pie (codeOffs : Ptr) : (piePass codeOffs).KeepsType := by
  intro enType type m h
  rw [piePass_moves] at h
  split at h <;> cases h
  rfl

theorem keepsType_pic (libs : List LibEntry) : (picPass libs).KeepsType := by
  intro enType type m h
  unfold picPass at h
  split at h
  · cases h
  · split at h <;> cases h
    rfl

/-- A statement about types and caches holds of the items after a pass if it did before. -/
theorem Options.Step.forall_items (hst : opt.Step p g M opt') (hk : p.KeepsType)
    {P : VType → VType → Option CacheRef → Prop} :
    (∀ en ∈ opt'.entries, en.isStatic = true → ∀ it ∈ en.items, P en.type it.type it.cache) ↔
      ∀ en ∈ opt.entries, en.isStatic = true → ∀ it ∈ en.items, P en.type it.type it.cache := by
  rw [hst.entries]
  constructor
  · intro h en hen hs it hit
    have := h (p.apply en) (List.mem_map_of_mem hen) (by rw [isStatic_apply, hs])
      (p.applyItem en.type it) (by rw [Pass.items_apply hs]; exact List.mem_map_of_mem hit)
    rwa [hk.entry, hk.item, applyItem_cache.1] at this
  · intro h en' hen' hs it' hit'
    obtain ⟨en, hen, rfl⟩ := List.mem_map.mp hen'
    rw [isStatic_apply] at hs
    rw [Pass.items_apply hs] at hit'
    obtain ⟨it, hit, rfl⟩ := List.mem_map.mp hit'
    rw [hk.entry, hk.item, applyItem_cache.1]
    exact h en hen hs it hit

theorem Options.Step.placed (hst : opt.Step p g M opt') (hk : p.KeepsType) (h : opt.Placed) :
    opt'.Placed :=
  (hst.forall_items hk (P := fun _ type cache => ∀ r, cache = some r → r.mem = type.place)).mpr h

theorem update_clearDirty (caches : Caches) (m : MemType) :
    Function.update caches m ((caches m).map clearDirty) =
      fun mem => if mem = m then (caches mem).map clearDirty else caches mem := by
  funext mem
  by_cases hm : mem = m
  · subst hm
    simp
  · rw [Function.update_of_ne hm, if_neg hm]

/-- **`handle_statmem_pie`** returns if the items of the executable have caches. -/
theorem handleStatmemPie_spec (hc : opt.caches.Clean) (hp : opt.Placed) :
    (∀ opt', handleStatmemPie opt = .ok opt' →
      (∀ en ∈ opt.entries, en.isStatic = true → ∀ it ∈ en.items,
        it.type.onStack = false → it.type.lib = none → it.cache ≠ none) ∧
      opt.Step (piePass opt.codeOffs) (fun _ o => o + opt.codeOffs) (· = .opt) opt' ∧ opt'.libs = opt.libs) ∧
    ((∀ en ∈ opt.entries, en.isStatic = true → ∀ it ∈ en.items,
        it.type.onStack = false → it.type.lib = none → it.cache ≠ none) →
      ∃ opt', handleStatmemPie opt = .ok opt') := by
  have hok : ∀ (t : VType) (it : StaticItem), (piePass opt.codeOffs).Ok t it ↔
      (it.type.onStack = false → it.type.lib = none → it.cache ≠ none) := by
    intro t it
    unfold Pass.Ok
    rw [piePass_moves]
    split
    · rename_i hm
      simp [hm]
    · rename_i hm
      exact iff_of_true ⟨none, rfl, by simp⟩ fun h₁ h₂ => absurd ⟨h₁, h₂⟩ hm
  have hmoves : ∀ (t type : VType) (m : Move), piePass opt.codeOffs t type = .ok (some m) →
      type.onStack = false ∧ type.lib = none ∧ m.offs = (· + opt.codeOffs) := by
    intro t type m h
    rw [piePass_moves] at h
    split at h
    · rename_i hm
      cases h
      exact ⟨hm.1, hm.2, rfl⟩
    · cases h
  have hplace : ∀ r ∈ (piePass opt.codeOffs).touched opt.entries, r.mem = .opt := by
    intro r hr
    obtain ⟨en, hen, hs, it, hit, hr, m, hm⟩ := Pass.mem_touched.mp hr
    obtain ⟨h₁, h₂, -⟩ := hmoves _ _ m hm
    rw [hp en hen hs it hit r hr, place_opt h₁ h₂]
  obtain ⟨hout, hret⟩ := Pass.relocEntries_spec (p := piePass opt.codeOffs) opt.entries
    (g := fun _ o => o + opt.codeOffs) (M := (· = .opt)) hc
    (fun en hen hs it hit m r hm _ => (hmoves _ _ m hm).2.2) hplace
  simp only [hok] at hout hret
  refine ⟨fun opt' h => ?_, fun h => ?_⟩
  · obtain ⟨res, hres, h⟩ := Run.bind_eq_ok.mp h
    cases h
    obtain ⟨h₁, h₂, h₃⟩ := hout res hres
    rw [← update_clearDirty] at h₃
    exact ⟨h₁, ⟨h₂, h₃, rfl, rfl, hplace⟩, rfl⟩
  · obtain ⟨res, hres⟩ := hret h
    rw [handleStatmemPie, hres]
    exact ⟨_, rfl⟩

/-- The caches of a library move by its load address. -/
def Options.libShift (opt : Options) (r : CacheRef) (o : Ptr) : Ptr :=
  match r.mem with
  | .lib l => o + opt.libStart l
  | _ => o

/-- **`handle_statmem_pic`** returns if the items of the libraries that were found have caches, and
their checks entries in a library. -/
theorem handleStatmemPic_spec (hc : opt.caches.Clean) (hp : opt.Placed)
    (hstack : ∀ en ∈ opt.entries, en.isStatic = true → ∀ it ∈ en.items,
      it.type.onStack = true → it.type.lib = none)
    (hl : ∀ lit ∈ opt.libs, lit.isLoaded = false) (latePic : Bool) :
    (∀ opt', handleStatmemPic opt latePic = .ok opt' →
      (∀ en ∈ opt.entries, en.isStatic = true → ∀ it ∈ en.items,
        (picPass opt.libs).Ok en.type it) ∧
      opt.Step (picPass opt.libs) opt.libShift
        (fun mem => ∃ l, mem = .lib l ∧ opt.libStart l ≠ 0) opt') ∧
    ((∀ en ∈ opt.entries, en.isStatic = true → ∀ it ∈ en.items,
        (picPass opt.libs).Ok en.type it) → ∃ opt', handleStatmemPic opt latePic = .ok opt') := by
  -- An item that moves is in a library, and so is its cache.
  have hmoves : ∀ en ∈ opt.entries, en.isStatic = true → ∀ it ∈ en.items, ∀ m r,
      picPass opt.libs en.type it.type = .ok (some m) → it.cache = some r →
        ∃ l, r.mem = .lib l ∧ opt.libStart l ≠ 0 ∧ m.offs = (· + opt.libStart l) := by
    intro en hen hs it hit m r hm hr
    have hok : (picPass opt.libs).Ok en.type it :=
      ⟨some m, hm, fun _ => by rw [hr]; exact Option.some_ne_none r⟩
    rcases picPass_eq hl hok with ⟨-, hno⟩ | ⟨l, l', hlib, -, hne, heq⟩
    · rw [hno] at hm
      cases hm
    · have hst : it.type.onStack = false := by
        cases hos : it.type.onStack with
        | false => rfl
        | true => rw [hstack en hen hs it hit hos] at hlib; cases hlib
      rw [heq] at hm
      cases hm
      exact ⟨l, by rw [hp en hen hs it hit r hr, place_lib hst hlib], hne, rfl⟩
  have hplace : ∀ r ∈ (picPass opt.libs).touched opt.entries,
      ∃ l, r.mem = .lib l ∧ opt.libStart l ≠ 0 := by
    intro r hr
    obtain ⟨en, hen, hs, it, hit, hr, m, hm⟩ := Pass.mem_touched.mp hr
    obtain ⟨l, hmem, hne, -⟩ := hmoves en hen hs it hit m r hm hr
    exact ⟨l, hmem, hne⟩
  obtain ⟨hout, hret⟩ := Pass.relocEntries_spec (p := picPass opt.libs) opt.entries
    (g := opt.libShift) (M := fun mem => mem.isLib = true) hc (by
      intro en hen hs it hit m r hm hr
      obtain ⟨l, hmem, -, hoffs⟩ := hmoves en hen hs it hit m r hm hr
      rw [hoffs]
      funext o
      rw [Options.libShift, hmem]) (by
      intro r hr
      obtain ⟨l, hmem, -⟩ := hplace r hr
      rw [hmem]
      rfl)
  refine ⟨fun opt' h => ?_, fun h => ?_⟩
  · obtain ⟨res, hres, h⟩ := Run.bind_eq_ok.mp h
    cases h
    obtain ⟨h₁, h₂, h₃⟩ := hout res hres
    exact ⟨h₁, h₂, h₃, rfl, rfl, hplace⟩
  · obtain ⟨res, hres⟩ := hret h
    rw [handleStatmemPic, hres]
    exact ⟨_, rfl⟩

/-- A pass that moves nothing. -/
theorem Options.Step.refl (hc : ∀ en ∈ opt.entries, en.isStatic = true → ∀ it ∈ en.items,
    p en.type it.type = .ok none) : opt.Step p g M opt := by
  have happ : ∀ en ∈ opt.entries, p.apply en = en := by
    intro en hen
    unfold Pass.apply
    split
    · rename_i hs
      have hself : p en.type en.type = .ok none := hc en hen hs _ List.mem_cons_self
      have hchk : ∀ chk ∈ en.checks.getD [], p.applyCheck en.type chk = chk := by
        intro chk hchk
        have := hc en hen hs chk.item (List.mem_cons_of_mem _ (List.mem_map_of_mem hchk))
        have hno : p en.type chk.type = .ok none := this
        simp [Pass.applyCheck, hno]
      rw [hself]
      cases hcs : en.checks with
      | none => rw [Option.map_none, ← hcs]
      | some chks =>
        rw [hcs, Option.getD_some] at hchk
        rw [Option.map_some, List.map_congr_left hchk, List.map_id', ← hcs]
    · rfl
  have htouch : p.touched opt.entries = [] := by
    refine List.eq_nil_iff_forall_not_mem.mpr fun r hr => ?_
    obtain ⟨en, hen, hs, it, hit, -, m, hm⟩ := Pass.mem_touched.mp hr
    rw [hc en hen hs it hit] at hm
    cases hm
  refine ⟨(List.map_id' opt.entries).symm.trans (List.map_congr_left happ).symm, fun r => ?_, rfl,
    rfl, by simp [htouch]⟩
  rw [htouch]
  simp

/-- **`process_stack_end`** returns if the items on the stack have caches. -/
theorem processStackEnd_spec (hc : opt.caches.Clean) (hp : opt.Placed)
    (hval : ∀ en ∈ opt.entries, en.isStatic = true → ∀ it ∈ en.items,
      it.type.onStack = true → opt.valOnStack = true) :
    (∀ opt', processStackEnd opt = .ok opt' →
      (∀ en ∈ opt.entries, en.isStatic = true → ∀ it ∈ en.items,
        it.type.onStack = true → it.cache ≠ none) ∧
      opt.Step (stackPass opt.stackEnd) (fun _ o => opt.stackEnd - o) (· = .stack) opt') ∧
    ((∀ en ∈ opt.entries, en.isStatic = true → ∀ it ∈ en.items,
        it.type.onStack = true → it.cache ≠ none) →
      ∃ opt', processStackEnd opt = .ok opt') := by
  cases hv : opt.valOnStack with
  | false =>
    have hno : ∀ en ∈ opt.entries, en.isStatic = true → ∀ it ∈ en.items,
        it.type.onStack = false := by
      intro en hen hs it hit
      cases hos : it.type.onStack with
      | false => rfl
      | true =>
        have := hval en hen hs it hit hos
        rw [hv] at this
        cases this
    have heq : processStackEnd opt = .ok opt := by simp [processStackEnd, hv]
    refine ⟨fun opt' h => ?_, fun _ => ⟨opt, heq⟩⟩
    rw [heq] at h
    cases h
    refine ⟨fun en hen hs it hit hos => ?_, .refl fun en hen hs it hit => ?_⟩
    · rw [hno en hen hs it hit] at hos
      cases hos
    · simp [stackPass, hno en hen hs it hit]
  | true =>
    have hok : ∀ (t : VType) (it : StaticItem), (stackPass opt.stackEnd).Ok t it ↔
        (it.type.onStack = true → it.cache ≠ none) := by
      intro t it
      unfold Pass.Ok
      rw [stackPass_moves]
      cases it.type.onStack <;> simp
    have hmoves : ∀ (t type : VType) (m : Move), stackPass opt.stackEnd t type = .ok (some m) →
        type.onStack = true ∧ m.offs = (opt.stackEnd - ·) := by
      intro t type m h
      rw [stackPass_moves] at h
      split at h
      · rename_i hm
        cases h
        exact ⟨hm, rfl⟩
      · cases h
    have hplace : ∀ r ∈ (stackPass opt.stackEnd).touched opt.entries, r.mem = .stack := by
      intro r hr
      obtain ⟨en, hen, hs, it, hit, hr, m, hm⟩ := Pass.mem_touched.mp hr
      rw [hp en hen hs it hit r hr, place_stack (hmoves _ _ m hm).1]
    obtain ⟨hout, hret⟩ := Pass.relocEntries_spec (p := stackPass opt.stackEnd)
      opt.entries (g := fun _ o => opt.stackEnd - o) (M := (· = .stack)) hc
      (fun en hen hs it hit m r hm _ => (hmoves _ _ m hm).2) hplace
    simp only [hok] at hout hret
    unfold processStackEnd
    simp only [hv, if_true]
    refine ⟨fun opt' h => ?_, fun h => ?_⟩
    · obtain ⟨res, hres, h⟩ := Run.bind_eq_ok.mp h
      cases h
      obtain ⟨h₁, h₂, h₃⟩ := hout res hres
      rw [← update_clearDirty] at h₃
      exact ⟨h₁, h₂, h₃, hv.symm, rfl, hplace⟩
    · obtain ⟨res, hres⟩ := hret h
      rw [hres]
      exact ⟨_, rfl⟩

end Steps

/-! ## All relocations -/

section Relocate

variable {chunk : Nat} {opt opt' : Options} {en : CfgEntry} {it : StaticItem} {r : CacheRef}

/-- An item can be relocated: it has a cache, and the pass for libraries finds what it needs. -/
def Options.CanReloc (opt : Options) (enType : VType) (it : StaticItem) : Prop :=
  (it.type.onStack = false → it.type.lib = none → it.cache ≠ none) ∧
    (picPass opt.libs).Ok enType it ∧ (it.type.onStack = true → it.cache ≠ none)

/-- The three relocations, one after the other. -/
structure Options.Relocated (opt opt₁ opt₂ opt' : Options) : Prop where
  pie : opt.Step (piePass opt.codeOffs) (fun _ o => o + opt.codeOffs) (· = .opt) opt₁
  pic : opt₁.Step (picPass opt.libs) opt.libShift
    (fun mem => ∃ l, mem = .lib l ∧ opt.libStart l ≠ 0) opt₂
  stack : opt₂.Step (stackPass opt.stackEnd) (fun _ o => opt.stackEnd - o) (· = .stack) opt'

/-- **The relocation returns** exactly if all items can be relocated. -/
theorem relocate_spec (h : opt.Parsed) (hc : opt.caches.Clean) (hp : opt.Placed) :
    (∀ opt', relocate opt = .ok opt' →
      (∀ en ∈ opt.entries, en.isStatic = true → ∀ it ∈ en.items, opt.CanReloc en.type it) ∧
        ∃ opt₁ opt₂, opt.Relocated opt₁ opt₂ opt') ∧
      ((∀ en ∈ opt.entries, en.isStatic = true → ∀ it ∈ en.items, opt.CanReloc en.type it) →
        ∃ opt', relocate opt = .ok opt') := by
  obtain ⟨hout₁, hret₁⟩ := handleStatmemPie_spec hc hp
  -- What the later passes need, seen from the entries at the start.
  have hpic : ∀ opt₁, handleStatmemPie opt = .ok opt₁ → opt₁.libs = opt.libs ∧
      opt₁.caches.Clean ∧ opt₁.Placed ∧ (∀ en ∈ opt₁.entries, en.isStatic = true →
        ∀ it ∈ en.items, it.type.onStack = true → it.type.lib = none) ∧
      ((∀ en ∈ opt₁.entries, en.isStatic = true → ∀ it ∈ en.items,
          (picPass opt₁.libs).Ok en.type it) ↔
        ∀ en ∈ opt.entries, en.isStatic = true → ∀ it ∈ en.items,
          (picPass opt.libs).Ok en.type it) := by
    intro opt₁ h₁
    obtain ⟨-, hst, hlibs⟩ := hout₁ opt₁ h₁
    have hk := keepsType_pie opt.codeOffs
    rw [hlibs]
    exact ⟨rfl, hst.caches.clean hc, hst.placed hk hp,
      (hst.forall_items hk (P := fun _ type _ => type.onStack = true → type.lib = none)).mpr
        h.stack_lib,
      hst.forall_items hk (P := fun t type cache => ∃ o, picPass opt.libs t type = .ok o ∧
        (o.isSome = true → cache ≠ none))⟩
  have hstack : ∀ opt₁ opt₂, handleStatmemPie opt = .ok opt₁ →
      handleStatmemPic opt₁ false = .ok opt₂ →
      opt.Step (piePass opt.codeOffs) (fun _ o => o + opt.codeOffs) (· = .opt) opt₁ ∧
      opt₁.Step (picPass opt.libs) opt.libShift
        (fun mem => ∃ l, mem = .lib l ∧ opt.libStart l ≠ 0) opt₂ ∧
      opt₂.stackEnd = opt.stackEnd ∧ opt₂.caches.Clean ∧ opt₂.Placed ∧
      (∀ en ∈ opt₂.entries, en.isStatic = true → ∀ it ∈ en.items,
        it.type.onStack = true → opt₂.valOnStack = true) ∧
      ((∀ en ∈ opt₂.entries, en.isStatic = true → ∀ it ∈ en.items,
          it.type.onStack = true → it.cache ≠ none) ↔
        ∀ en ∈ opt.entries, en.isStatic = true → ∀ it ∈ en.items,
          it.type.onStack = true → it.cache ≠ none) := by
    intro opt₁ opt₂ h₁ h₂
    obtain ⟨-, hst₁, -⟩ := hout₁ opt₁ h₁
    obtain ⟨hlibs, hc₁, hp₁, hs₁, -⟩ := hpic opt₁ h₁
    obtain ⟨-, hst₂⟩ := (handleStatmemPic_spec hc₁ hp₁ hs₁ (by rw [hlibs]; exact h.not_loaded)
      false).1 opt₂ h₂
    have hshift : opt₁.libShift = opt.libShift := by
      funext r o
      simp only [Options.libShift, Options.libStart, hlibs]
    have hstart : ∀ l, opt₁.libStart l = opt.libStart l := by
      intro l
      simp only [Options.libStart, hlibs]
    simp only [hlibs, hshift, hstart] at hst₂
    have hk₁ := keepsType_pie opt.codeOffs
    have hk₂ := keepsType_pic opt.libs
    refine ⟨hst₁, hst₂, hst₂.stackEnd.trans hst₁.stackEnd, hst₂.caches.clean hc₁,
      hst₂.placed hk₂ hp₁, ?_, ?_⟩
    · rw [hst₂.valOnStack, hst₁.valOnStack]
      exact (hst₂.forall_items hk₂ (P := fun _ type _ => type.onStack = true →
          opt.valOnStack = true)).mpr
        ((hst₁.forall_items hk₁ (P := fun _ type _ => type.onStack = true →
          opt.valOnStack = true)).mpr h.val_on_stack)
    · exact (hst₂.forall_items hk₂ (P := fun _ type cache => type.onStack = true →
          cache ≠ none)).trans
        (hst₁.forall_items hk₁ (P := fun _ type cache => type.onStack = true → cache ≠ none))
  constructor
  · intro opt' hrel
    obtain ⟨opt₁, h₁, hrel⟩ := Run.bind_eq_ok.mp hrel
    obtain ⟨opt₂, h₂, h₃⟩ := Run.bind_eq_ok.mp hrel
    obtain ⟨hcan₁, -, -⟩ := hout₁ opt₁ h₁
    obtain ⟨hlibs, hc₁, hp₁, hs₁, hiff₁⟩ := hpic opt₁ h₁
    obtain ⟨hcan₂, -⟩ := (handleStatmemPic_spec hc₁ hp₁ hs₁ (by rw [hlibs]; exact h.not_loaded)
      false).1 opt₂ h₂
    obtain ⟨hst₁, hst₂, hend, hc₂, hp₂, hv₂, hiff₂⟩ := hstack opt₁ opt₂ h₁ h₂
    obtain ⟨hcan₃, hst₃⟩ := (processStackEnd_spec hc₂ hp₂ hv₂).1 opt' h₃
    rw [hend] at hst₃
    exact ⟨fun en hen hs it hit => ⟨hcan₁ en hen hs it hit, hiff₁.mp hcan₂ en hen hs it hit,
      hiff₂.mp hcan₃ en hen hs it hit⟩, opt₁, opt₂, hst₁, hst₂, hst₃⟩
  · intro hcan
    obtain ⟨opt₁, h₁⟩ := hret₁ fun en hen hs it hit => (hcan en hen hs it hit).1
    obtain ⟨hlibs, hc₁, hp₁, hs₁, hiff₁⟩ := hpic opt₁ h₁
    obtain ⟨opt₂, h₂⟩ := (handleStatmemPic_spec hc₁ hp₁ hs₁ (by rw [hlibs]; exact h.not_loaded)
      false).2 (hiff₁.mpr fun en hen hs it hit => (hcan en hen hs it hit).2.1)
    obtain ⟨-, -, -, hc₂, hp₂, hv₂, hiff₂⟩ := hstack opt₁ opt₂ h₁ h₂
    obtain ⟨opt', h₃⟩ := (processStackEnd_spec hc₂ hp₂ hv₂).2
      (hiff₂.mpr fun en hen hs it hit => (hcan en hen hs it hit).2.2)
    exact ⟨opt', by rw [relocate, h₁, Run.ok_bind, h₂, Run.ok_bind, h₃]⟩

end Relocate

end UgTrain
