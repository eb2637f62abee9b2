import UgTrain.RegionRule

/-!
# Relocated addresses

`relocate_iff`: the relocations return and leave every value and every address check at its
relocated address, through its cache as well, exactly if

* every item that is relocated has a cache,
* a check in a library that was found belongs to an entry whose library starts at the same address,
* every item on the stack is the first one of its chunk. Stack offsets are subtracted, and the
  position in the chunk is still added.
-/

namespace UgTrain

open CLib

/-- The item is relocated: its library was found, if it is in one. -/
def Options.Relocates (opt : Options) (type : VType) : Prop :=
  ∀ l, type.lib = some l → opt.libStart l ≠ 0

/-- Where an address of a type is relocated to. -/
def Options.shift (opt : Options) (type : VType) (addr : Ptr) : Ptr :=
  if type.onStack then opt.stackEnd - addr
  else
    match type.lib with
    | some l => addr + opt.libStart l
    | none => addr + opt.codeOffs

/-- Every static item with a cache is at its relocated address, and accessed there. -/
def Options.Consistent (opt opt' : Options) : Prop :=
  ∀ (e : Nat) (en : CfgEntry), opt.entries[e]? = some en → en.isStatic = true →
    ∃ en', opt'.entries[e]? = some en' ∧
      ∀ (k : Nat) (it : StaticItem) (r : CacheRef), en.items[k]? = some it → it.cache = some r →
        ∃ it' c, en'.items[k]? = some it' ∧ it'.cache = some r ∧ opt'.caches.get? r = some c ∧
          it'.addr = opt.shift it.type it.addr ∧
          c.offs + it'.cacheData = opt.shift it.type it.addr

/-- What an item needs to be relocated, with the type of its entry. -/
structure Options.ItemOk (opt : Options) (enType : VType) (it : StaticItem) : Prop where
  cached : opt.Relocates it.type → it.cache ≠ none
  own_lib : ∀ l, it.type.lib = some l → opt.libStart l ≠ 0 →
    ∃ l', enType.lib = some l' ∧ opt.libStart l' = opt.libStart l
  stack : it.type.onStack = true → it.cacheData = 0

def Options.RelocOk (opt : Options) : Prop :=
  ∀ en ∈ opt.entries, en.isStatic = true → ∀ it ∈ en.items, opt.ItemOk en.type it

/-! ## One item -/

section Item

variable {opt opt' : Options} {p : Pass} {g : CacheRef → Ptr → Ptr} {M : MemType → Prop}
  {e k : Nat} {en : CfgEntry} {it : StaticItem} {r : CacheRef} {c : CacheEntry} {m : Move}

theorem applyItem_moves {t : VType} (h : p t it.type = .ok (some m)) :
    p.applyItem t it = { it with addr := m.addr it.addr, type := m.type } := by
  simp [Pass.applyItem, h]

theorem applyItem_still {t : VType} (h : p t it.type = .ok none) : p.applyItem t it = it := by
  simp [Pass.applyItem, h]

theorem Options.Step.entry (hst : opt.Step p g M opt') (he : opt.entries[e]? = some en) :
    opt'.entries[e]? = some (p.apply en) := by
  rw [hst.entries, List.getElem?_map, he, Option.map_some]

theorem items_apply_getElem? (hs : en.isStatic = true) (hk : en.items[k]? = some it) :
    (p.apply en).items[k]? = some (p.applyItem en.type it) := by
  rw [Pass.items_apply hs, List.getElem?_map, hk, Option.map_some]

/-- The cache of an item that moves. -/
theorem Options.Step.cache_moves (hst : opt.Step p g M opt') (hen : en ∈ opt.entries)
    (hs : en.isStatic = true) (hit : it ∈ en.items) (hr : it.cache = some r)
    (hm : p en.type it.type = .ok (some m)) (hc : opt.caches.get? r = some c) :
    opt'.caches.get? r = some { c with offs := g r c.offs } := by
  have hmem : r ∈ p.touched opt.entries := Pass.mem_touched.mpr ⟨en, hen, hs, it, hit, hr, m, hm⟩
  rw [hst.caches r, hc, Option.map_some, if_pos hmem]

/-- The caches of the other lists stay where they are. -/
theorem Options.Step.cache_still (hst : opt.Step p g M opt') (hM : ¬ M r.mem)
    (hc : opt.caches.get? r = some c) : opt'.caches.get? r = some c := by
  have hmem : r ∉ p.touched opt.entries := fun h => hM (hst.place r h)
  rw [hst.caches r, hc, Option.map_some, if_neg hmem]

end Item

section Relocated

variable {chunk : Nat} {opt opt₁ opt₂ opt' : Options} {e k : Nat} {en : CfgEntry} {it : StaticItem}
  {r : CacheRef} {c : CacheEntry}

/-- A position in a chunk is subtracted and added at once only if it is 0. -/
theorem stack_position {chunk : Nat} (hc : chunk ≤ 2 ^ 63) {stackEnd offs addr cacheData : Ptr}
    (ha : offs + cacheData = addr) (hlt : cacheData.toNat < chunk) :
    stackEnd - offs + cacheData = stackEnd - addr ↔ cacheData = 0 := by
  subst ha
  constructor
  · intro heq
    have h2 : cacheData + cacheData = 0 := by
      have : stackEnd - offs + cacheData - (stackEnd - (offs + cacheData)) =
          cacheData + cacheData := by ring
      rw [← this, heq, BitVec.sub_self]
      rfl
    have hnat := congrArg BitVec.toNat h2
    rw [BitVec.toNat_add, Nat.mod_eq_of_lt (by omega)] at hnat
    apply BitVec.eq_of_toNat_eq
    have hz : (0 : Ptr).toNat = 0 := rfl
    rw [hz] at hnat ⊢
    omega
  · rintro rfl
    ring

/-- The address that an item gets: a check in a library moves with the library of its entry. -/
def Options.movedAddr (opt : Options) (enType : VType) (it : StaticItem) : Ptr :=
  if it.type.onStack then opt.stackEnd - it.addr
  else
    match it.type.lib with
    | some l => if opt.libStart l = 0 then it.addr else it.addr + enType.lib.elim 0 opt.libStart
    | none => it.addr + opt.codeOffs

/-- **One item and its cache** after all relocations: the cache moves with the type of the item. -/
theorem Options.Relocated.item (h : opt.Parsed) (hrel : opt.Relocated opt₁ opt₂ opt')
    (hp : opt.Placed) (he : opt.entries[e]? = some en) (hs : en.isStatic = true)
    (hcan : opt.CanReloc en.type it) (hk : en.items[k]? = some it) (hr : it.cache = some r)
    (hc : opt.caches.get? r = some c) :
    ∃ en', opt'.entries[e]? = some en' ∧ ∃ it', en'.items[k]? = some it' ∧ it'.cache = some r ∧
      it'.cacheData = it.cacheData ∧ it'.addr = opt.movedAddr en.type it ∧
      opt'.caches.get? r = some { c with offs := opt.shift it.type c.offs } := by
  have hen := List.mem_of_getElem? he
  have hit := List.mem_of_getElem? hk
  have hk₁ := keepsType_pie opt.codeOffs
  have hk₂ := keepsType_pic opt.libs
  -- The entry and the item before each of the passes.
  have he₁ := hrel.pie.entry he
  have he₂ := hrel.pic.entry he₁
  have he₃ := hrel.stack.entry he₂
  have hen₁ := List.mem_of_getElem? he₁
  have hen₂ := List.mem_of_getElem? he₂
  have hs₁ : ((piePass opt.codeOffs).apply en).isStatic = true := isStatic_apply.trans hs
  have hs₂ : ((picPass opt.libs).apply ((piePass opt.codeOffs).apply en)).isStatic = true :=
    isStatic_apply.trans hs₁
  have ht₁ : ((piePass opt.codeOffs).apply en).type = en.type := hk₁.entry
  have ht₂ : ((picPass opt.libs).apply ((piePass opt.codeOffs).apply en)).type = _ := hk₂.entry
  have hi₁ := items_apply_getElem? (p := piePass opt.codeOffs) hs hk
  have hi₂ := items_apply_getElem? (p := picPass opt.libs) hs₁ hi₁
  have hi₃ := items_apply_getElem? (p := stackPass opt.stackEnd) hs₂ hi₂
  have hit₁ := List.mem_of_getElem? hi₁
  have hit₂ := List.mem_of_getElem? hi₂
  rw [ht₁] at hi₂ hit₂
  rw [ht₂, ht₁] at hi₃
  have hplace := hp en hen hs it hit r hr
  refine ⟨_, he₃, _, hi₃, by simp [hr], by simp, ?_⟩
  cases hos : it.type.onStack with
  | true =>
    -- Only the pass for the stack moves it.
    have hlib := h.stack_lib en hen hs it hit hos
    rw [place_stack hos] at hplace
    have h₁ : piePass opt.codeOffs en.type it.type = .ok none := by simp [piePass_moves, hos]
    have h₂ : picPass opt.libs en.type it.type = .ok none := by simp [picPass, newLib, hlib]
    have h₃ : stackPass opt.stackEnd en.type it.type = .ok
        (some ⟨(opt.stackEnd - ·), (opt.stackEnd - ·), { it.type with onStack := false }⟩) := by
      simp [stackPass_moves, hos]
    rw [applyItem_still h₁, applyItem_still h₂] at hit₂
    rw [applyItem_still h₁, applyItem_still h₂, applyItem_moves h₃]
    refine ⟨by simp [Options.movedAddr, hos], ?_⟩
    have hc₁ := hrel.pie.cache_still (by simp [hplace]) hc
    have hc₂ := hrel.pic.cache_still (by simp [hplace]) hc₁
    rw [hrel.stack.cache_moves hen₂ hs₂ hit₂ hr (by rw [ht₂, ht₁]; exact h₃) hc₂]
    simp [Options.shift, hos]
  | false =>
    have h₃ : stackPass opt.stackEnd en.type it.type = .ok none := by simp [stackPass_moves, hos]
    cases hlib : it.type.lib with
    | none =>
      rw [place_opt hos hlib] at hplace
      have h₁ : piePass opt.codeOffs en.type it.type = .ok
          (some ⟨(· + opt.codeOffs), (· + opt.codeOffs), it.type⟩) := by
        simp [piePass_moves, hos, hlib]
      have h₂ : picPass opt.libs en.type it.type = .ok none := by simp [picPass, newLib, hlib]
      have h₂' : picPass opt.libs en.type { it with addr := it.addr + opt.codeOffs }.type =
          .ok none := h₂
      have h₃' : stackPass opt.stackEnd en.type { it with addr := it.addr + opt.codeOffs }.type =
          .ok none := h₃
      rw [applyItem_moves h₁, applyItem_still h₂', applyItem_still h₃']
      refine ⟨by simp [Options.movedAddr, hos, hlib], ?_⟩
      have hc₁ := hrel.pie.cache_moves hen hs hit hr h₁ hc
      have hc₂ := hrel.pic.cache_still (by simp [hplace]) hc₁
      rw [hrel.stack.cache_still (by simp [hplace]) hc₂]
      simp [Options.shift, hos, hlib]
    | some l =>
      rw [place_lib hos hlib] at hplace
      have h₁ : piePass opt.codeOffs en.type it.type = .ok none := by
        simp [piePass_moves, hlib]
      have hc₁ := hrel.pie.cache_still (by simp [hplace]) hc
      rw [applyItem_still h₁] at hit₁ ⊢
      rcases picPass_eq h.not_loaded hcan.2.1 with ⟨h0, h₂⟩ | ⟨l₁, l', hl₁, hl', hne, h₂⟩
      · -- The library was not found.
        have h0 := h0 l hlib
        rw [applyItem_still h₂, applyItem_still h₃]
        refine ⟨by simp [Options.movedAddr, hos, hlib, h0], ?_⟩
        have hc₂ := hrel.pic.cache_still (by simp [hplace, h0]) hc₁
        rw [hrel.stack.cache_still (by simp [hplace]) hc₂]
        simp [Options.shift, hos, hlib, h0]
      · rw [hlib] at hl₁
        cases hl₁
        have h₃' : stackPass opt.stackEnd en.type { it with addr := it.addr + opt.libStart l' }.type =
            .ok none := h₃
        rw [applyItem_moves h₂, applyItem_still h₃']
        refine ⟨by simpa [Options.movedAddr, hos, hlib, hl'] using fun h0 => absurd h0 hne, ?_⟩
        have hc₂ := hrel.pic.cache_moves hen₁ hs₁ hit₁ hr (by rw [ht₁]; exact h₂) hc₁
        rw [hrel.stack.cache_still (by simp [hplace]) hc₂]
        simp [Options.shift, Options.libShift, hplace, hos, hlib]

/-- An item has what it needs if it can be relocated and its cache follows it. -/
theorem itemOk_iff (hc : chunk ≤ 2 ^ 63) (h : opt.Parsed) (hb : opt.Built chunk)
    (hen : en ∈ opt.entries) (hs : en.isStatic = true) (hit : it ∈ en.items) :
    opt.ItemOk en.type it ↔ opt.CanReloc en.type it ∧ ∀ r c, it.cache = some r →
      opt.caches.get? r = some c → opt.movedAddr en.type it = opt.shift it.type it.addr ∧
        opt.shift it.type c.offs + it.cacheData = opt.shift it.type it.addr := by
  have hpic : (picPass opt.libs).Ok en.type it ↔ _ := picPass_ok h.not_loaded
  have hget : ∀ l, opt.libStart l ≠ 0 → ∃ lit, opt.libs[l]? = some lit := by
    intro l hne
    by_contra hno
    have hnone : opt.libs[l]? = none := Option.eq_none_iff_forall_not_mem.mpr fun lit hl => hno ⟨lit, hl⟩
    exact hne (by simp [Options.libStart, hnone])
  constructor
  · intro hok
    have hcan : opt.CanReloc en.type it := by
      refine ⟨fun hos hlib => hok.cached (by simp [Options.Relocates, hlib]),
        hpic.mpr fun l hlib hne => ⟨hok.cached fun l' hl' => ?_, ?_⟩,
        fun hos => hok.cached (by simp [Options.Relocates, h.stack_lib en hen hs it hit hos])⟩
      · rw [hlib] at hl'
        cases hl'
        exact hne
      · obtain ⟨l', hl', hstart⟩ := hok.own_lib l hlib hne
        obtain ⟨lit', hget'⟩ := hget l' (by rwa [hstart])
        exact ⟨l', lit', hl', hget'⟩
    refine ⟨hcan, fun r c hr hcr => ?_⟩
    obtain ⟨-, c', hcr', haddr, hlt⟩ := hb.item hen hs hit hr
    rw [hcr] at hcr'
    cases hcr'
    unfold Options.movedAddr Options.shift
    cases hos : it.type.onStack with
    | true =>
      refine ⟨rfl, (stack_position hc haddr hlt).mpr (hok.stack hos)⟩
    | false =>
      simp only [Bool.false_eq_true, if_false]
      cases hlib : it.type.lib with
      | none =>
        refine ⟨rfl, ?_⟩
        rw [← haddr]
        ring
      | some l =>
        refine ⟨?_, by simp only [← haddr]; ring⟩
        simp only
        split
        · rename_i h0
          rw [h0]
          exact (BitVec.add_zero _).symm
        · rename_i hne
          obtain ⟨l', hl', hstart⟩ := hok.own_lib l hlib hne
          rw [hl', Option.elim_some, hstart]
  · rintro ⟨hcan, hall⟩
    have hcache : it.cache ≠ none → ∃ r c, it.cache = some r ∧ opt.caches.get? r = some c ∧
        c.offs + it.cacheData = it.addr ∧ it.cacheData.toNat < chunk := by
      intro hne
      obtain ⟨r, hr⟩ := Option.ne_none_iff_exists'.mp hne
      obtain ⟨-, c, hcr, hrest⟩ := hb.item hen hs hit hr
      exact ⟨r, c, hr, hcr, hrest⟩
    refine ⟨fun hrel => ?_, fun l hlib hne => ?_, fun hos => ?_⟩
    · cases hos : it.type.onStack with
      | true => exact hcan.2.2 hos
      | false =>
        cases hlib : it.type.lib with
        | none => exact hcan.1 hos hlib
        | some l => exact (hpic.mp hcan.2.1 l hlib (hrel l hlib)).1
    · obtain ⟨hne', l', lit', hl', hget'⟩ := hpic.mp hcan.2.1 l hlib hne
      refine ⟨l', hl', ?_⟩
      obtain ⟨r, c, hr, hcr, -⟩ := hcache hne'
      have hmoved := (hall r c hr hcr).1
      have hos : it.type.onStack = false := by
        cases hos : it.type.onStack with
        | false => rfl
        | true =>
          rw [h.stack_lib en hen hs it hit hos] at hlib
          cases hlib
      simp only [Options.movedAddr, Options.shift, hos, Bool.false_eq_true, if_false, hlib, hl',
        if_neg hne, Option.elim_some] at hmoved
      exact BitVec.add_right_inj _ |>.mp hmoved
    · obtain ⟨r, c, hr, hcr, haddr, hlt⟩ := hcache (hcan.2.2 hos)
      have hshift := (hall r c hr hcr).2
      simp only [Options.shift, hos, if_true] at hshift
      exact (stack_position hc haddr hlt).mp hshift

/-- **Relocation** from the caches that `build_caches` gives. -/
theorem Options.Built.consistent_iff (hc : chunk ≤ 2 ^ 63) (h : opt.Parsed) (hb : opt.Built chunk) :
    (∃ opt', relocate opt = .ok opt' ∧ opt.Consistent opt') ↔ opt.RelocOk := by
  have hp : opt.Placed := fun en hen hs it hit r hr => (hb.item hen hs hit hr).1
  obtain ⟨hout, hret⟩ := relocate_spec h hb.clean hp
  constructor
  · rintro ⟨opt', hrel, hcons⟩ en hen hs it hit
    obtain ⟨hcan, opt₁, opt₂, hr⟩ := hout opt' hrel
    refine (itemOk_iff hc h hb hen hs hit).mpr ⟨hcan en hen hs it hit, fun r c hr' hcr => ?_⟩
    obtain ⟨e, he⟩ := List.mem_iff_getElem?.mp hen
    obtain ⟨k, hk⟩ := List.mem_iff_getElem?.mp hit
    obtain ⟨en', he', it', hk', -, hdata, haddr, hcr'⟩ :=
      hr.item h hp he hs (hcan en hen hs it hit) hk hr' hcr
    obtain ⟨en'', he'', hall⟩ := hcons e en he hs
    obtain ⟨it'', c'', hk'', -, hcr'', haddr'', hsum⟩ := hall k it r hk hr'
    rw [he'] at he''
    cases he''
    rw [hk'] at hk''
    cases hk''
    rw [hcr'] at hcr''
    cases hcr''
    rw [hdata] at hsum
    exact ⟨haddr.symm.trans haddr'', hsum⟩
  · intro hok
    have hitem := fun en hen hs it hit => (itemOk_iff hc h hb hen hs hit).mp (hok en hen hs it hit)
    obtain ⟨opt', hrel⟩ := hret fun en hen hs it hit => (hitem en hen hs it hit).1
    obtain ⟨hcan, opt₁, opt₂, hr⟩ := hout opt' hrel
    refine ⟨opt', hrel, fun e en he hs => ?_⟩
    have hen := List.mem_of_getElem? he
    refine ⟨_, hr.stack.entry (hr.pic.entry (hr.pie.entry he)), fun k it r hk hr' => ?_⟩
    have hit := List.mem_of_getElem? hk
    obtain ⟨-, c, hcr, -⟩ := hb.item hen hs hit hr'
    obtain ⟨en', he', it', hk', hcache, hdata, haddr, hcr'⟩ :=
      hr.item h hp he hs (hcan en hen hs it hit) hk hr' hcr
    rw [hr.stack.entry (hr.pic.entry (hr.pie.entry he))] at he'
    cases he'
    obtain ⟨hmoved, hshift⟩ := (hitem en hen hs it hit).2 r c hr' hcr
    exact ⟨it', _, hk', hcache, hcr', haddr.trans hmoved, by rw [hdata]; exact hshift⟩

end Relocated

/-! ## From the config -/

section Config

variable {chunk : Nat} {opt : Options}

theorem buildCaches_parsed (h : opt.Parsed) : (buildCaches chunk opt).Parsed := by
  refine ⟨fun en' hen' hs it' hit' hos => ?_, fun en' hen' hs it' hit' hos => ?_, h.not_loaded⟩
  · obtain ⟨en, hen, hstatic, it, hit, ht⟩ := items_buildCaches hen' hit'
    rw [ht] at hos ⊢
    exact h.stack_lib en hen (hstatic.trans hs) it hit hos
  · obtain ⟨en, hen, hstatic, it, hit, ht⟩ := items_buildCaches hen' hit'
    rw [ht] at hos
    exact h.val_on_stack en hen (hstatic.trans hs) it hit hos

/-- **Relocation keeps entries and caches consistent** exactly if each item has what it needs. -/
theorem relocate_iff (h0 : 0 < chunk) (hc : chunk ≤ 2 ^ 63) (h : opt.Parsed) :
    (∃ opt', relocate (buildCaches chunk opt) = .ok opt' ∧
        (buildCaches chunk opt).Consistent opt') ↔ (buildCaches chunk opt).RelocOk :=
  (buildCaches_built h0 (by omega) opt).consistent_iff hc (buildCaches_parsed h)

/-- A 32 bit value on the stack. -/
def CfgEntry.onStack (offs : Ptr) : CfgEntry :=
  { (default : CfgEntry) with
    addr := offs
    type := { (default : VType) with onStack := true, size := 32 } }

def Options.withStack (entries : List CfgEntry) : Options where
  entries := entries
  dynmems := []
  ptrmems := []
  libs := []
  dumps := []
  caches := fun _ => []
  valOnStack := true
  stackEnd := 0x7ffffffff000
  codeOffs := 0x1000

theorem withStack_parsed {entries : List CfgEntry}
    (h : ∀ en ∈ entries, ∀ it ∈ en.items, it.type.lib = none) :
    (Options.withStack entries).Parsed :=
  ⟨fun en hen _ it hit _ => h en hen it hit, fun _ _ _ _ _ _ => rfl, by simp [Options.withStack]⟩

/-- The executable, the libraries and the stack are found. -/
def Options.found (opt : Options) : Options :=
  { opt with
    codeOffs := 0x1000
    stackEnd := 0x7ffffffff000
    libs := opt.libs.map fun lit => { lit with start := 0x5000 } }

theorem found_parsed (h : opt.Parsed) : opt.found.Parsed := by
  refine ⟨h.stack_lib, h.val_on_stack, fun lit hm => ?_⟩
  obtain ⟨lit₀, hm₀, rfl⟩ := List.mem_map.mp hm
  exact h.not_loaded lit₀ hm₀

/-- Two values of the executable that share a chunk, a value with a check in a library, and one on the
stack. -/
def regionLines : List Str :=
  ["game", "Gold 0x1000 i32 9 a a", "Gems 0x1004 i32 9 a a", "Lives lib liba.so 0x20 i32 5 a a",
    "check lib liba.so 0x24 i32 g 0", "Depth stack 0x10 i32 5 a a"].map (·.toList)

theorem relocate_iff_example : ∃ c,
    ConfigState.readConfig CfgReader.noFloats 8 0 "game.conf".toList none regionLines =
        some (.ok c) ∧
      (relocate (buildCaches 8 c.opt.found)).isOk = true ∧
      ((∃ opt', relocate (buildCaches 8 c.opt.found) = .ok opt' ∧
          (buildCaches 8 c.opt.found).Consistent opt') ↔ (buildCaches 8 c.opt.found).RelocOk) := by
  obtain ⟨c, hread, hok⟩ := ConfigState.exists_read regionLines
    (fun c => (relocate (buildCaches 8 c.opt.found)).isOk) (by decide +kernel)
  exact ⟨c, hread, hok, relocate_iff (by decide) (by decide)
    (found_parsed (parsed_of_regions (ConfigState.readConfig_regions hread)))⟩

/-- Two values on the stack share a chunk: the second one is accessed at the end of the stack. -/
theorem relocate_not_consistent :
    (Options.withStack [.onStack 0x10, .onStack 0x20]).Parsed ∧
      ∃ opt', relocate (buildCaches 2048 (.withStack [.onStack 0x10, .onStack 0x20])) = .ok opt' ∧
        ¬ (buildCaches 2048 (.withStack [.onStack 0x10, .onStack 0x20])).Consistent opt' := by
  have hp : (Options.withStack [.onStack 0x10, .onStack 0x20]).Parsed :=
    withStack_parsed (by decide)
  have hb : (buildCaches 2048 (.withStack [.onStack 0x10, .onStack 0x20])).Built 2048 :=
    buildCaches_built (by decide) (by decide) _
  have hret : (relocate (buildCaches 2048
      (.withStack [.onStack 0x10, .onStack 0x20]))).isOk = true := by decide
  have hsnd : ((buildCaches 2048 (.withStack [.onStack 0x10, .onStack 0x20])).entries[1]?).map
      (fun en => (en.isStatic, en.type.onStack, en.cacheData)) = some (true, true, 0x10) := by
    decide
  refine ⟨hp, ?_⟩
  cases hrel : relocate (buildCaches 2048 (.withStack [.onStack 0x10, .onStack 0x20])) with
  | error e =>
    rw [hrel] at hret
    cases hret
  | ok opt' =>
    refine ⟨opt', rfl, fun hcons => ?_⟩
    obtain ⟨en, hen, hval⟩ := Option.map_eq_some_iff.mp hsnd
    obtain ⟨hs, hos, hdata⟩ : en.isStatic = true ∧ en.type.onStack = true ∧ en.cacheData = 0x10 := by
      simpa using hval
    have hok := (hb.consistent_iff (by decide) (buildCaches_parsed hp)).mp ⟨opt', hrel, hcons⟩
    have hzero : en.cacheData = 0 :=
      (hok en (List.mem_of_getElem? hen) hs _ List.mem_cons_self).stack hos
    rw [hdata] at hzero
    exact absurd hzero (by decide)

end Config

end UgTrain
