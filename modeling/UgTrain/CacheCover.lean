import UgTrain.BuildCaches
import UgTrain.NumType

/-!
# Chunks cover their items (`BUILD_CACHE`)

`buildCaches_covered_iff`: when each item is in the chunk that it is assigned, and the chunks of each
list stand in ascending order. Three things go wrong: a check line behind the end of a section may
have an address before the first chunk of the section; the end of a chunk may wrap at the end of the
address space, so that chunks with the same start follow each other; and so may the end of an item.
-/

namespace UgTrain

open CLib

/-- The item is in its chunk. -/
def AddrEntry.Covered (chunk : Nat) (caches : Caches) (ait : AddrEntry) (a : CacheRef × Ptr) :
    Prop :=
  a.1.mem = ait.mem ∧ ∃ c, caches.get? a.1 = some c ∧ c.offs ≤ ait.addr ∧
    ait.addr.toNat + ait.size.toNat ≤ c.offs.toNat + chunk ∧ a.2 = ait.addr - c.offs

/-- The chunks of each list stand in ascending order. -/
def Caches.Ascending (caches : Caches) : Prop := ∀ mem, (caches mem).Pairwise (·.offs < ·.offs)

/-- What the last chunk of its list must be for an item: it does not start behind the item; if it
starts with the item, its end does not wrap; and an item up to the end of the address space is not in
a chunk that ends before. -/
def Caches.Suits (chunk : Nat) (caches : Caches) (ait : AddrEntry) : Prop :=
  ∀ c, (caches ait.mem).getLast? = some c → c.offs ≤ ait.addr ∧
    (c.offs = ait.addr → c.offs.toNat + chunk < 2 ^ 64) ∧
    (ait.addr.toNat + ait.size.toNat = 2 ^ 64 → c.offs.toNat + chunk < 2 ^ 64 →
      c.offs.toNat + chunk ≤ ait.addr.toNat)

/-- The last chunks suit all items, one after the other. -/
def Caches.SuitsAll (chunk : Nat) : Caches → List AddrEntry → Prop
  | _, [] => True
  | caches, ait :: addrlist =>
    caches.Suits chunk ait ∧ SuitsAll chunk (buildCache chunk caches ait).1 addrlist

/-- An integer value, which does not wrap at the end of the address space. -/
def AddrEntry.Plain (ait : AddrEntry) : Prop :=
  0 < ait.size.toNat ∧ ait.size.toNat ≤ 8 ∧ ait.addr.toNat + ait.size.toNat ≤ 2 ^ 64

section Chunks

variable {chunk : Nat} {caches caches' : Caches} {ait : AddrEntry} {a : CacheRef × Ptr}

/-- Where a chunk starts with an item, and where the item is in the last one. -/
theorem suits_iff (h8 : 8 ≤ chunk) (hc : chunk < 2 ^ 64) {offs addr : Ptr} {size : SizeT}
    (hs0 : 0 < size.toNat) (hs8 : size.toNat ≤ 8) (hend : addr.toNat + size.toNat ≤ 2 ^ 64) :
    (if addr ≥ (if addr + size > offs + BitVec.ofNat 64 chunk then addr
        else offs + BitVec.ofNat 64 chunk) then offs < addr
      else offs ≤ addr ∧ addr.toNat + size.toNat ≤ offs.toNat + chunk) ↔
      offs ≤ addr ∧ (offs = addr → offs.toNat + chunk < 2 ^ 64) ∧
        (addr.toNat + size.toNat = 2 ^ 64 → offs.toNat + chunk < 2 ^ 64 →
          offs.toNat + chunk ≤ addr.toNat) := by
  have hmod : (offs + BitVec.ofNat 64 chunk).toNat = (offs.toNat + chunk) % 2 ^ 64 := by
    rw [BitVec.toNat_add, BitVec.toNat_ofNat, Nat.mod_eq_of_lt hc]
  have hoffs := offs.isLt
  have haddr := addr.isLt
  have hadd : (addr + size).toNat = (addr.toNat + size.toNat) % 2 ^ 64 := BitVec.toNat_add ..
  simp only [ge_iff_le, gt_iff_lt, BitVec.le_def, BitVec.lt_def, BitVec.toNat_eq, apply_ite BitVec.toNat,
    hmod, hadd]
  split <;> split <;> omega

theorem pairwise_append_initCache {l : List CacheEntry} {c : CacheEntry} {addr : Ptr}
    (hlast : l.getLast? = some c) (hl : l.Pairwise (·.offs < ·.offs)) :
    (l ++ [initCache chunk addr]).Pairwise (·.offs < ·.offs) ↔ c.offs < addr := by
  obtain ⟨l, rfl⟩ := List.getLast?_eq_some_iff.mp hlast
  rw [List.pairwise_append]
  constructor
  · exact fun ⟨_, _, h⟩ => h c (by simp) (initCache chunk addr) (by simp)
  · intro hlt
    refine ⟨hl, List.pairwise_singleton _ _, fun b hb d hd => ?_⟩
    obtain rfl := List.mem_singleton.mp hd
    rcases List.mem_append.mp hb with hb | hb
    · exact BitVec.lt_trans ((List.pairwise_append.mp hl).2.2 b hb c (by simp)) hlt
    · obtain rfl := List.mem_singleton.mp hb
      exact hlt

theorem ascending_update {mem : MemType} {l : List CacheEntry} (h : caches.Ascending) :
    Caches.Ascending (Function.update caches mem l) ↔ l.Pairwise (·.offs < ·.offs) := by
  constructor
  · intro hu
    simpa using hu mem
  · intro hl mem'
    by_cases hm : mem' = mem
    · subst hm
      rwa [Function.update_self]
    · rw [Function.update_of_ne hm]
      exact h mem'

/-- What a chunk of a list covers, it covers in a longer list. -/
theorem covered_of_prefix (h : ∀ mem, caches mem <+: caches' mem) {c : CacheEntry}
    (hc : caches.get? a.1 = some c) :
    ait.Covered chunk caches' a ↔ ait.Covered chunk caches a := by
  have hget : caches'.get? a.1 = caches.get? a.1 := by
    obtain ⟨t, ht⟩ := h a.1.mem
    have hlt := (List.getElem?_eq_some_iff.mp hc).1
    rw [Caches.get?, Caches.get?, ← ht, List.getElem?_append_left hlt]
  unfold AddrEntry.Covered
  rw [hget]

/-- **One item** is in its chunk, and the chunks stay in order, exactly if the last chunk before
suits the item. -/
theorem buildCache_suits (h8 : 8 ≤ chunk) (hc : chunk < 2 ^ 64) (hp : ait.Plain)
    (hasc : caches.Ascending) {c : CacheEntry} (hlast : (caches ait.mem).getLast? = some c) :
    ∃ caches₁ a, buildCache chunk caches ait = (caches₁, a) ∧ (∃ c₁, caches₁.get? a.1 = some c₁) ∧
      (caches₁.Ascending ∧ ait.Covered chunk caches₁ a ↔ caches.Suits chunk ait) := by
  obtain ⟨hs0, hs8, hend⟩ := hp
  have hD : (caches ait.mem).getLastD default = c := by
    rw [List.getLastD_eq_getLast?, hlast]
    rfl
  have hsuits : caches.Suits chunk ait ↔ c.offs ≤ ait.addr ∧
      (c.offs = ait.addr → c.offs.toNat + chunk < 2 ^ 64) ∧
      (ait.addr.toNat + ait.size.toNat = 2 ^ 64 → c.offs.toNat + chunk < 2 ^ 64 →
        c.offs.toNat + chunk ≤ ait.addr.toNat) := by
    unfold Caches.Suits
    rw [hlast]
    simp
  rw [hsuits, ← suits_iff h8 hc hs0 hs8 hend]
  by_cases hnew : ait.addr ≥ if ait.addr + ait.size > c.offs + BitVec.ofNat 64 chunk then ait.addr
      else c.offs + BitVec.ofNat 64 chunk
  · have hlen : (caches ait.mem ++ [initCache chunk ait.addr]).length - 1 =
        (caches ait.mem).length := by simp
    have hget : Caches.get? (Function.update caches ait.mem
        (caches ait.mem ++ [initCache chunk ait.addr])) ⟨ait.mem, (caches ait.mem).length⟩ =
          some (initCache chunk ait.addr) := by
      simp [Caches.get?]
    have hD' : (caches ait.mem ++ [initCache chunk ait.addr]).getLastD default =
        initCache chunk ait.addr := by simp
    refine ⟨_, (⟨ait.mem, (caches ait.mem).length⟩, ait.addr - (initCache chunk ait.addr).offs),
      by simp only [buildCache, hD, if_pos hnew, hlen, hD'], ⟨_, hget⟩, ?_⟩
    rw [if_pos hnew, ascending_update hasc, pairwise_append_initCache hlast (hasc ait.mem)]
    exact and_iff_left ⟨rfl, _, hget, BitVec.le_refl _, Nat.add_le_add_left (hs8.trans h8) _, rfl⟩
  · have hget : caches.get? ⟨ait.mem, (caches ait.mem).length - 1⟩ = some c := by
      rw [Caches.get?, ← List.getLast?_eq_getElem?, hlast]
    have heq : Function.update caches ait.mem (caches ait.mem) = caches :=
      Function.update_eq_self _ _
    refine ⟨caches, (⟨ait.mem, (caches ait.mem).length - 1⟩, ait.addr - c.offs),
      by simp only [buildCache, hD, if_neg hnew, heq], ⟨c, hget⟩, ?_⟩
    rw [if_neg hnew]
    constructor
    · rintro ⟨-, -, c₁, hc₁, hle, hfit, -⟩
      cases hget.symm.trans hc₁
      exact ⟨hle, hfit⟩
    · rintro ⟨hle, hfit⟩
      exact ⟨hasc, rfl, c, hget, hle, hfit, rfl⟩

theorem prefix_buildCache (mem : MemType) : caches mem <+: (buildCache chunk caches ait).1 mem := by
  have hif : ∀ (p : Prop) [Decidable p] (l m : List CacheEntry), l <+: if p then l ++ m else l := by
    intro p _ l m
    split
    · exact List.prefix_append _ _
    · exact List.prefix_refl _
  unfold buildCache
  dsimp only
  by_cases hm : mem = ait.mem
  · subst hm
    rw [Function.update_self]
    exact hif _ _ _
  · rw [Function.update_of_ne hm]

theorem buildCacheLists_prefix {addrlist : List AddrEntry} (mem : MemType) :
    caches mem <+: (buildCacheLists chunk addrlist caches).1 mem := by
  induction addrlist generalizing caches with
  | nil => exact List.prefix_refl _
  | cons ait addrlist ih => exact (prefix_buildCache mem).trans ih

theorem buildCacheLists_keys {addrlist : List AddrEntry} :
    (buildCacheLists chunk addrlist caches).2.map (·.1) = addrlist.map (·.element) := by
  induction addrlist generalizing caches with
  | nil => rfl
  | cons ait addrlist ih => exact congrArg (ait.element :: ·) ih

theorem Caches.Ascending.anti (h : caches'.Ascending) (hp : ∀ mem, caches mem <+: caches' mem) :
    caches.Ascending :=
  fun mem => (h mem).sublist (hp mem).sublist

/-- **All items** are in their chunks, and the chunks are in order, exactly if the last chunks suit
them one after the other. -/
theorem buildCacheLists_suits (h8 : 8 ≤ chunk) (hc : chunk < 2 ^ 64) {addrlist : List AddrEntry}
    (hp : ∀ ait ∈ addrlist, ait.Plain) (hasc : caches.Ascending)
    (hne : ∀ mem, caches mem ≠ []) :
    (buildCacheLists chunk addrlist caches).1.Ascending ∧
        List.Forall₂ (fun ait x => ait.Covered chunk (buildCacheLists chunk addrlist caches).1 x.2)
          addrlist (buildCacheLists chunk addrlist caches).2 ↔
      caches.SuitsAll chunk addrlist := by
  induction addrlist generalizing caches with
  | nil => exact iff_of_true ⟨hasc, .nil⟩ trivial
  | cons ait addrlist ih =>
    obtain ⟨c, hlast⟩ := Option.ne_none_iff_exists'.mp
      (mt List.getLast?_eq_none_iff.mp (hne ait.mem))
    obtain ⟨caches₁, a, h₁, ⟨c₁, hc₁⟩, hiff⟩ :=
      buildCache_suits h8 hc (hp ait List.mem_cons_self) hasc hlast
    have hpre₁ : ∀ mem, caches mem <+: caches₁ mem := by
      intro mem
      have hpre : caches mem <+: (buildCache chunk caches ait).1 mem := prefix_buildCache mem
      rwa [h₁] at hpre
    have hpre₂ : ∀ mem, caches₁ mem <+: (buildCacheLists chunk addrlist caches₁).1 mem :=
      buildCacheLists_prefix
    have hlists : buildCacheLists chunk (ait :: addrlist) caches =
        ((buildCacheLists chunk addrlist caches₁).1,
          (ait.element, a) :: (buildCacheLists chunk addrlist caches₁).2) := by
      rw [buildCacheLists, h₁]
    rw [hlists, List.forall₂_cons, covered_of_prefix hpre₂ hc₁, Caches.SuitsAll, h₁, ← hiff]
    by_cases hasc₁ : caches₁.Ascending
    · have hne₁ : ∀ mem, caches₁ mem ≠ [] := by
        intro mem h0
        have := hpre₁ mem
        rw [h0, List.prefix_nil] at this
        exact hne mem this
      rw [← ih (fun b hb => hp b (List.mem_cons_of_mem ait hb)) hasc₁ hne₁]
      tauto
    · -- The chunks stay out of order.
      exact iff_of_false (fun h => hasc₁ (h.1.anti hpre₂)) fun h => hasc₁ h.1.1

end Chunks

/-! ## The config -/

/-- The item of a value or a check, with its chunk. -/
def Options.CoveredAt (chunk : Nat) (opt : Options) (mem : MemType) (addr : Ptr) (type : VType)
    (cache : Option CacheRef) (cacheData : Ptr) : Prop :=
  ∃ r c, cache = some r ∧ r.mem = mem ∧ opt.caches.get? r = some c ∧ c.offs ≤ addr ∧
    addr.toNat + type.bytes ≤ c.offs.toNat + chunk ∧ cacheData = addr - c.offs

/-- Values and address checks are in their chunks, and the chunks of each list in order. -/
structure Options.Covered (chunk : Nat) (opt : Options) : Prop where
  entry : ∀ en ∈ opt.entries, en.type.isCstr = false →
    opt.CoveredAt chunk en.memType en.addr en.type en.cache en.cacheData
  check : ∀ en ∈ opt.entries, ∀ chk ∈ en.checks.getD [], en.type.isCstr = false →
    chk.cfgRef = none →
      opt.CoveredAt chunk (en.checkMemType chk) chk.addr chk.type chk.cache chk.cacheData
  ascending : opt.caches.Ascending

/-- Values and address checks have 8, 16, 32 or 64 bits and do not wrap. -/
def VType.PlainAt (type : VType) (addr : Ptr) : Prop :=
  type.size ∈ [8, 16, 32, 64] ∧ addr.toNat + type.bytes ≤ 2 ^ 64

structure Options.Plain (opt : Options) : Prop where
  entry : ∀ en ∈ opt.entries, en.type.isCstr = false → en.type.PlainAt en.addr
  check : ∀ en ∈ opt.entries, ∀ chk ∈ en.checks.getD [], en.type.isCstr = false →
    chk.cfgRef = none → chk.type.PlainAt chk.addr

/-- The items in the order of their addresses, and the first chunks. -/
def Options.addrlist (opt : Options) : List AddrEntry :=
  (addrList opt.entries).insertionSort (·.addr ≤ ·.addr)

def Options.firstCaches (chunk : Nat) (opt : Options) : Caches :=
  fun mem => [initCache chunk (findCacheStart opt.entries mem)]

section Config

variable {chunk : Nat} {opt : Options}

theorem VType.PlainAt.size {type : VType} {addr : Ptr} (h : type.PlainAt addr) :
    (BitVec.ofNat 64 type.bytes).toNat = type.bytes ∧ 0 < type.bytes ∧
      type.bytes ≤ 8 := by
  obtain ⟨hs, -⟩ := h
  rw [VType.bytes_of_usual hs]
  simp only [List.mem_cons, List.not_mem_nil, or_false] at hs
  rcases hs with h | h | h | h <;> rw [h] <;> decide

theorem Options.Plain.addrlist (h : opt.Plain) : ∀ ait ∈ opt.addrlist, ait.Plain := by
  have hplain : ∀ {mem el} {type : VType} {addr : Ptr}, type.PlainAt addr →
      AddrEntry.Plain ⟨addr, BitVec.ofNat 64 type.bytes, mem, el⟩ := by
    intro mem el type addr hp
    obtain ⟨heq, hpos, hle⟩ := hp.size
    unfold AddrEntry.Plain
    rw [heq]
    exact ⟨hpos, hle, hp.2⟩
  intro ait hait
  rw [Options.addrlist, List.mem_insertionSort] at hait
  obtain ⟨e, en, he, hait⟩ := mem_addrList.mp hait
  rcases mem_addrEntries.mp hait with ⟨hcstr, rfl | ⟨k, chk, hk, href, rfl⟩⟩
  · exact hplain (h.entry en (List.mem_of_getElem? he) hcstr)
  · exact hplain (h.check en (List.mem_of_getElem? he) chk (List.mem_of_getElem? hk) hcstr href)

/-- What each item is assigned. -/
theorem forall₂_iff_lookup {P : AddrEntry → CacheRef × Ptr → Prop} {addrlist : List AddrEntry}
    {assigned : List (Element × CacheRef × Ptr)}
    (hkeys : assigned.map (·.1) = addrlist.map (·.element))
    (hn : (addrlist.map (·.element)).Nodup) :
    List.Forall₂ (fun ait x => P ait x.2) addrlist assigned ↔
      ∀ ait ∈ addrlist, ∃ a, assigned.lookup ait.element = some a ∧ P ait a := by
  induction addrlist generalizing assigned with
  | nil =>
    obtain rfl : assigned = [] := by simpa using hkeys
    simp
  | cons ait addrlist ih =>
    cases assigned with
    | nil => simp at hkeys
    | cons x assigned =>
      obtain ⟨el, a⟩ := x
      simp only [List.map_cons, List.cons.injEq] at hkeys
      obtain ⟨rfl, hkeys⟩ := hkeys
      obtain ⟨hnot, hn⟩ := List.nodup_cons.mp hn
      rw [List.forall₂_cons, ih hkeys hn, List.forall_mem_cons]
      refine and_congr (by simp) (forall₂_congr fun b hb => ?_)
      have hnot : ait.element ∉ addrlist.map (·.element) := hnot
      have hne : b.element ≠ ait.element := by
        intro heq
        rw [← heq] at hnot
        exact hnot (List.mem_map_of_mem hb)
      rw [List.lookup_cons, beq_false_of_ne hne]

theorem coveredAt_iff {caches : Caches} {mem : MemType} {addr : Ptr} {type : VType} {el : Element}
    {l : Option (CacheRef × Ptr)} (h : type.PlainAt addr) (hopt : opt.caches = caches) :
    opt.CoveredAt chunk mem addr type (l.map (·.1)) ((l.map (·.2)).getD 0) ↔ ∃ a, l = some a ∧
      AddrEntry.Covered chunk caches ⟨addr, BitVec.ofNat 64 type.bytes, mem, el⟩ a := by
  unfold Options.CoveredAt AddrEntry.Covered
  rw [h.size.1, hopt]
  cases l with
  | none => simp
  | some a =>
    constructor
    · rintro ⟨r, c, hr, hmem, hrest⟩
      cases hr
      exact ⟨a, rfl, hmem, c, hrest⟩
    · rintro ⟨b, hb, hmem, c, hrest⟩
      cases hb
      exact ⟨a.1, c, rfl, hmem, hrest⟩

/-- The items of the config, as the list has them. -/
theorem covered_iff {caches : Caches} {assigned : List (Element × CacheRef × Ptr)} (hp : opt.Plain) :
    Options.Covered chunk { opt with
        entries := opt.entries.mapIdx (CfgEntry.assignCaches assigned), caches := caches } ↔
      caches.Ascending ∧ ∀ ait ∈ addrList opt.entries, ∃ a,
        assigned.lookup ait.element = some a ∧ ait.Covered chunk caches a := by
  have hentry : ∀ {e : Nat} {en : CfgEntry}, opt.entries[e]? = some en → en.type.isCstr = false →
      (Options.CoveredAt chunk { opt with
          entries := opt.entries.mapIdx (CfgEntry.assignCaches assigned), caches := caches }
        en.memType en.addr en.type (en.assignCaches assigned e).cache
          (en.assignCaches assigned e).cacheData ↔
        ∃ a, assigned.lookup (e, none) = some a ∧ AddrEntry.Covered chunk caches
          ⟨en.addr, BitVec.ofNat 64 en.type.bytes, en.memType, (e, none)⟩ a) :=
    fun he hcstr => coveredAt_iff (hp.entry _ (List.mem_of_getElem? he) hcstr) rfl
  have hcheck : ∀ {e k : Nat} {en : CfgEntry} {chk : CheckEntry}, opt.entries[e]? = some en →
      en.type.isCstr = false → (en.checks.getD [])[k]? = some chk → chk.cfgRef = none →
      (Options.CoveredAt chunk { opt with
          entries := opt.entries.mapIdx (CfgEntry.assignCaches assigned), caches := caches }
        (en.checkMemType chk) chk.addr chk.type
          (chk.assignCache (assigned.lookup (e, some k))).cache
          (chk.assignCache (assigned.lookup (e, some k))).cacheData ↔
        ∃ a, assigned.lookup (e, some k) = some a ∧ AddrEntry.Covered chunk caches
          ⟨chk.addr, BitVec.ofNat 64 chk.type.bytes, en.checkMemType chk, (e, some k)⟩ a) :=
    fun he hcstr hk href => coveredAt_iff (hp.check _ (List.mem_of_getElem? he) _
      (List.mem_of_getElem? hk) hcstr href) rfl
  constructor
  · intro h
    refine ⟨h.ascending, fun ait hait => ?_⟩
    obtain ⟨e, en, he, hait⟩ := mem_addrList.mp hait
    have hmem : en.assignCaches assigned e ∈ opt.entries.mapIdx (CfgEntry.assignCaches assigned) := by
      obtain ⟨hlt, rfl⟩ := List.getElem?_eq_some_iff.mp he
      exact List.mem_mapIdx.mpr ⟨e, hlt, rfl⟩
    rcases mem_addrEntries.mp hait with ⟨hcstr, rfl | ⟨k, chk, hk, href, rfl⟩⟩
    · exact (hentry he hcstr).mp (h.entry _ hmem hcstr)
    · refine (hcheck he hcstr hk href).mp (h.check _ hmem _ ?_ hcstr href)
      cases hc : en.checks with
      | none => simp [hc] at hk
      | some chks =>
        rw [hc, Option.getD_some] at hk
        obtain ⟨hlt, rfl⟩ := List.getElem?_eq_some_iff.mp hk
        simp only [CfgEntry.assignCaches, hc, Option.map_some, Option.getD_some]
        exact List.mem_mapIdx.mpr ⟨k, hlt, rfl⟩
  · rintro ⟨hasc, hall⟩
    refine ⟨fun en' hen' hcstr => ?_, fun en' hen' chk' hchk' hcstr href => ?_, hasc⟩
    · obtain ⟨e, hlt, rfl⟩ := List.mem_mapIdx.mp hen'
      have he := List.getElem?_eq_getElem hlt
      exact (hentry he hcstr).mpr (hall _ ((entry_mem_addrList he).1 hcstr))
    · obtain ⟨e, hlt, rfl⟩ := List.mem_mapIdx.mp hen'
      have he := List.getElem?_eq_getElem hlt
      obtain ⟨k, chk, hk, rfl⟩ := mem_checks_assignCaches hchk'
      exact (hcheck he hcstr hk href).mpr (hall _ ((check_mem_addrList he hk).1 hcstr href))

/-- **Chunks cover their items.** After `build_caches` values and address checks are in their chunks,
and the chunks of each list in ascending order, exactly if the last chunks suit the items in the order
of their addresses. -/
theorem buildCaches_covered_iff (h8 : 8 ≤ chunk) (hc : chunk < 2 ^ 64) (hp : opt.Plain) :
    (buildCaches chunk opt).Covered chunk ↔ (opt.firstCaches chunk).SuitsAll chunk opt.addrlist := by
  have hperm := List.perm_insertionSort (fun a b : AddrEntry => a.addr ≤ b.addr)
    (addrList opt.entries)
  have hn : (opt.addrlist.map (·.element)).Nodup :=
    (hperm.map _).nodup_iff.mpr (addrList_nodup _)
  have hasc : (opt.firstCaches chunk).Ascending := fun mem => List.pairwise_singleton _ _
  have hmem : ∀ ait, ait ∈ opt.addrlist ↔ ait ∈ addrList opt.entries := fun _ => hperm.mem_iff
  rw [← buildCacheLists_suits h8 hc hp.addrlist hasc fun mem => List.cons_ne_nil _ _,
    forall₂_iff_lookup buildCacheLists_keys hn]
  simp only [hmem]
  exact covered_iff hp

/-- The last chunks suit items that are far from the end of the address space. -/
theorem suitsAll_of_low {caches : Caches} {addrlist : List AddrEntry} (h0 : 0 < chunk)
    (hc : chunk < 2 ^ 64) (hsort : addrlist.Pairwise (·.addr ≤ ·.addr))
    (hlow : ∀ ait ∈ addrlist, ait.addr.toNat + chunk < 2 ^ 64 ∧ ait.size.toNat ≤ chunk)
    (hbefore : ∀ ait ∈ addrlist, ∃ c, (caches ait.mem).getLast? = some c ∧ c.offs ≤ ait.addr) :
    caches.SuitsAll chunk addrlist := by
  induction addrlist generalizing caches with
  | nil => trivial
  | cons ait addrlist ih =>
    obtain ⟨c, hlast, hle⟩ := hbefore ait List.mem_cons_self
    obtain ⟨haddr, hsize⟩ := hlow ait List.mem_cons_self
    obtain ⟨hhead, hsort⟩ := List.pairwise_cons.mp hsort
    obtain ⟨caches₁, cache, cacheData, h₁, -, -, hother, -, -, c', hlast', hoffs⟩ :=
      buildCache_spec h0 hc hlast
    have hle' := BitVec.le_def.mp hle
    refine ⟨fun c₁ hc₁ => ?_, ?_⟩
    · cases hlast.symm.trans hc₁
      exact ⟨hle, fun _ => by omega, fun hend => by omega⟩
    · rw [h₁]
      refine ih hsort (fun a ha => hlow a (List.mem_cons_of_mem _ ha)) fun a ha => ?_
      obtain ⟨ca, hca, hlea⟩ := hbefore a (List.mem_cons_of_mem _ ha)
      by_cases hm : a.mem = ait.mem
      · rw [hm] at hca ⊢
        cases hlast.symm.trans hca
        refine ⟨c', hlast', ?_⟩
        rcases hoffs with rfl | hoffs
        · exact hlea
        · exact hoffs ▸ hhead a ha
      · have hca₁ : (caches₁ a.mem).getLast? = some ca := by rw [hother _ hm]; exact hca
        exact ⟨ca, hca₁, hlea⟩

/-- It is enough that no item is near the end of the address space, and that the checks of each section
stand in it. -/
theorem buildCaches_covered (h8 : 8 ≤ chunk) (hc : chunk < 2 ^ 64) (hp : opt.Plain)
    (hat : ∀ en ∈ opt.entries, ∀ chk ∈ en.checks.getD [], en.AtPlace chk)
    (hlow : ∀ ait ∈ addrList opt.entries, ait.addr.toNat + chunk < 2 ^ 64) :
    (buildCaches chunk opt).Covered chunk := by
  have hperm := List.perm_insertionSort (fun a b : AddrEntry => a.addr ≤ b.addr)
    (addrList opt.entries)
  refine (buildCaches_covered_iff h8 hc hp).mpr (suitsAll_of_low (by omega) hc (sorted_addrlist _)
    (fun ait hait => ⟨hlow ait (hperm.mem_iff.mp hait), ?_⟩) fun ait hait => ⟨_, rfl, ?_⟩)
  · exact (hp.addrlist ait hait).2.1.trans h8
  · obtain ⟨e, en, he, hait⟩ := mem_addrList.mp (hperm.mem_iff.mp hait)
    have hen := List.mem_of_getElem? he
    rcases mem_addrEntries.mp hait with ⟨hcstr, rfl | ⟨k, chk, hk, href, rfl⟩⟩
    · exact entry_start_le hen hcstr
    · have hchk := List.mem_of_getElem? hk
      exact check_start_le hen hchk href (hat en hen chk hchk)

end Config

/-- A check of a byte, behind the end of the section of its entry. -/
def CheckEntry.byteOutside (addr : Ptr) : CheckEntry :=
  { (default : CheckEntry) with
    outside := true
    addr := addr
    type := { (default : VType) with size := 8 } }

/-- A class with one byte. -/
def Options.byteClass (addr : Ptr) (checks : Option (List CheckEntry)) : Options where
  entries := [{ (default : CfgEntry) with
    addr := addr
    type := { (default : VType) with size := 8 }
    checks := checks
    dynmem := some 0 }]
  dynmems := [default]
  ptrmems := []
  libs := []
  dumps := []
  caches := fun _ => []
  valOnStack := false
  stackEnd := 0
  codeOffs := 0

/-- A check line behind `dynmemend` with an address before the first value of the class. -/
theorem buildCaches_not_covered :
    ¬ (buildCaches 2048 (.byteClass 4 (some [.byteOutside 0]))).Covered 2048 := by
  have hlist : (Options.byteClass 4 (some [.byteOutside 0])).addrlist =
      [⟨0, 1, .dynmem 0, (0, some 0)⟩, ⟨4, 1, .dynmem 0, (0, none)⟩] := by decide
  have hstart : findCacheStart (Options.byteClass 4 (some [.byteOutside 0])).entries
      (.dynmem 0) = 4 := by decide
  rw [buildCaches_covered_iff (by decide) (by decide)
    ⟨by unfold VType.PlainAt; decide, by unfold VType.PlainAt; decide⟩, hlist]
  intro h
  obtain ⟨hle, -⟩ := h.1 _ rfl
  rw [initCache, hstart] at hle
  exact absurd hle (by decide)

theorem buildCaches_covered_example : (buildCaches 2048 (.byteClass 4 none)).Covered 2048 := by
  have hlist : (Options.byteClass 4 none).addrlist = [⟨4, 1, .dynmem 0, (0, none)⟩] := by decide
  have hstart : findCacheStart (Options.byteClass 4 none).entries (.dynmem 0) = 4 := by decide
  refine (buildCaches_covered_iff (by decide) (by decide)
    ⟨by unfold VType.PlainAt; decide, by unfold VType.PlainAt; decide⟩).mpr ?_
  rw [hlist]
  refine ⟨fun c hc => ?_, trivial⟩
  obtain rfl : initCache 2048 (findCacheStart (Options.byteClass 4 none).entries (.dynmem 0)) = c :=
    Option.some.inj hc
  rw [initCache, hstart]
  decide

end UgTrain
