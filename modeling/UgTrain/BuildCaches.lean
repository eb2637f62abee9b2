import UgTrain.MemMgmt

/-!
# Caches of target memory (`build_caches`)

Values and address checks are accessed through chunks of target memory. Each list of caches (a
class, a pointer section, the stack, a library, the executable) starts with a chunk at the lowest
address in it; `buildCaches` goes along the addresses in order and opens a new chunk where an item
does not fit into the last one.

* `chunk` is `MEM_CHUNK`.
* `Options.Built` is what `buildCaches` gives (`buildCaches_built`): values and address checks are
  in their chunks, text and what belongs to it has no cache, and neither has a check of a value
  reference.
* The pointers to the caches are assigned after the chunks are complete, not one by one.
-/

namespace UgTrain

open CLib

/-- The caches of each list. -/
abbrev Caches := MemType → List CacheEntry

def Caches.get? (caches : Caches) (r : CacheRef) : Option CacheEntry := (caches r.mem)[r.idx]?

def Caches.modify (caches : Caches) (r : CacheRef) (f : CacheEntry → CacheEntry) : Caches :=
  Function.update caches r.mem ((caches r.mem).modify r.idx f)

/-- What `Options` has for the config. -/
structure Options extends CfgMem where
  libs : List LibEntry
  dumps : List DumpEntry
  caches : Caches
  valOnStack : Bool
  stackEnd : Ptr
  codeOffs : Ptr

/-- The list of caches for an item of an entry. -/
def memTypeOf (dynmem ptrmem : Option Nat) (type : VType) : MemType :=
  match dynmem with
  | some d => .dynmem d
  | none =>
    match ptrmem with
    | some p => .ptrmem p
    | none =>
      if type.onStack then .stack
      else
        match type.lib with
        | some l => .lib l
        | none => .opt

def CfgEntry.memType (en : CfgEntry) : MemType := memTypeOf en.dynmem en.ptrmem en.type

def CfgEntry.checkMemType (en : CfgEntry) (chk : CheckEntry) : MemType :=
  memTypeOf en.dynmem en.ptrmem chk.type

/-! ## `build_caches` -/

section Build

variable (chunk : Nat)

def initCache (addr : Ptr) : CacheEntry := ⟨addr, ptrMax, List.replicate chunk 0, false⟩

/-- `element`: an entry of the config, or one of its checks. -/
abbrev Element := Nat × Option Nat

structure AddrEntry where
  addr : Ptr
  size : SizeT
  mem : MemType
  element : Element
  deriving DecidableEq, Repr

/-- `LIST_ADD_ADDR` for an entry and its checks. -/
def CfgEntry.addrEntries (e : Nat) (en : CfgEntry) : List AddrEntry :=
  -- no caching for strings
  if en.type.isCstr then []
  else
    ⟨en.addr, BitVec.ofNat 64 en.type.bytes, en.memType, (e, none)⟩ ::
      (en.checks.getD []).zipIdx.filterMap fun (chk, k) =>
        if chk.cfgRef.isSome then none
        else some ⟨chk.addr, BitVec.ofNat 64 chk.type.bytes, en.checkMemType chk, (e, some k)⟩

def addrList (cfg : List CfgEntry) : List AddrEntry :=
  cfg.zipIdx.flatMap fun (en, e) => en.addrEntries e

/-- The list that the line of a check is taken for: behind the end of a section, the static one. -/
def CfgEntry.lineMemType (en : CfgEntry) (chk : CheckEntry) : MemType :=
  if chk.outside then memTypeOf none none chk.type else en.checkMemType chk

/-- The addresses for `FIND_CACHE_START` and `FIND_CACHE_START_CHECK`. -/
def CfgEntry.startAddrs (en : CfgEntry) : List (MemType × Ptr) :=
  (if en.type.isCstr then [] else [(en.memType, en.addr)]) ++
    (en.checks.getD []).filterMap fun chk =>
      if chk.cfgRef.isSome then none else some (en.lineMemType chk, chk.addr)

/-- The start of the first cache of a list: the lowest address. -/
def findCacheStart (cfg : List CfgEntry) (mem : MemType) : Ptr :=
  (cfg.flatMap CfgEntry.startAddrs).foldl
    (fun offs a => if a.1 = mem ∧ a.2 < offs then a.2 else offs) ptrMax

/-- `BUILD_CACHE`: the caches, and the cache and the position in it for the item. -/
def buildCache (caches : Caches) (ait : AddrEntry) : Caches × CacheRef × Ptr :=
  let offsMin := ((caches ait.mem).getLastD default).offs + BitVec.ofNat 64 chunk
  let offsMin := if ait.addr + ait.size > offsMin then ait.addr else offsMin
  let list := if ait.addr ≥ offsMin then caches ait.mem ++ [initCache chunk ait.addr]
    else caches ait.mem
  (Function.update caches ait.mem list, ⟨ait.mem, list.length - 1⟩,
    ait.addr - (list.getLastD default).offs)

/-- The loop over the sorted addresses. -/
def buildCacheLists : List AddrEntry → Caches → Caches × List (Element × CacheRef × Ptr)
  | [], caches => (caches, [])
  | ait :: addrlist, caches =>
    let (caches, a) := buildCache chunk caches ait
    let (caches, assigned) := buildCacheLists addrlist caches
    (caches, (ait.element, a) :: assigned)

def CheckEntry.assignCache (chk : CheckEntry) (a : Option (CacheRef × Ptr)) : CheckEntry :=
  { chk with cache := a.map (·.1), cacheData := (a.map (·.2)).getD 0 }

def CfgEntry.assignCaches (assigned : List (Element × CacheRef × Ptr)) (e : Nat) (en : CfgEntry) :
    CfgEntry :=
  let a := assigned.lookup (e, none)
  { en with
    cache := a.map (·.1)
    cacheData := (a.map (·.2)).getD 0
    checks := en.checks.map (·.mapIdx fun k chk => chk.assignCache (assigned.lookup (e, some k))) }

def buildCaches (opt : Options) : Options :=
  let addrlist := (addrList opt.entries).insertionSort (·.addr ≤ ·.addr)
  let (caches, assigned) := buildCacheLists chunk addrlist
    fun mem => [initCache chunk (findCacheStart opt.entries mem)]
  { opt with
    entries := opt.entries.mapIdx (CfgEntry.assignCaches assigned)
    caches := caches }

end Build

/-! ## Chunks -/

section Chunks

variable {chunk : Nat}

/-- An item that does not need a new chunk is in the last one. -/
theorem chunk_fits {addr offs : Ptr} {size : SizeT} (hc : chunk < 2 ^ 64) (hle : offs ≤ addr)
    (h : ¬ addr ≥ if addr + size > offs + BitVec.ofNat 64 chunk then addr
      else offs + BitVec.ofNat 64 chunk) :
    (addr - offs).toNat < chunk ∧
      (addr.toNat + size.toNat < 2 ^ 64 → (addr - offs).toNat + size.toNat ≤ chunk) := by
  split at h
  · exact absurd (BitVec.le_refl addr) h
  · rename_i hsize
    have hsub : (addr - offs).toNat = addr.toNat - offs.toNat := BitVec.toNat_sub_of_le hle
    have hmod : (offs + BitVec.ofNat 64 chunk).toNat = (offs.toNat + chunk) % 2 ^ 64 := by
      rw [BitVec.toNat_add, BitVec.toNat_ofNat, Nat.mod_eq_of_lt hc]
    rw [ge_iff_le, BitVec.le_def, hmod] at h
    rw [gt_iff_lt, BitVec.lt_def, hmod, BitVec.toNat_add] at hsize
    rw [BitVec.le_def] at hle
    have haddr := addr.isLt
    have hoffs := offs.isLt
    -- The end of the chunk does not wrap around, since it lies behind the address.
    have hnowrap : offs.toNat + chunk < 2 ^ 64 := by omega
    rw [Nat.mod_eq_of_lt hnowrap] at h hsize
    refine ⟨by omega, fun hend => ?_⟩
    rw [Nat.mod_eq_of_lt hend] at hsize
    omega

/-- An item of a list is in one of its chunks. -/
def Cached (chunk : Nat) (caches : Caches) (mem : MemType) (addr : Ptr) (size : SizeT)
    (cache : CacheRef) (cacheData : Ptr) : Prop :=
  cache.mem = mem ∧ ∃ c, caches.get? cache = some c ∧ c.offs + cacheData = addr ∧
    cacheData.toNat < chunk ∧
      (size.toNat ≤ chunk → addr.toNat + size.toNat < 2 ^ 64 →
        cacheData.toNat + size.toNat ≤ chunk)

/-- No cache is valid or dirty. -/
def Caches.Fresh (chunk : Nat) (caches : Caches) : Prop :=
  ∀ mem, ∀ c ∈ caches mem, c.start = ptrMax ∧ c.isDirty = false ∧ c.data.length = chunk

/-- The last cache of a list is not behind the items to come, but those before the start. -/
def Caches.Before (start : MemType → Ptr) (caches : Caches) (addrlist : List AddrEntry) : Prop :=
  ∀ ait ∈ addrlist, ∃ c, (caches ait.mem).getLast? = some c ∧
    (start ait.mem ≤ ait.addr → c.offs ≤ ait.addr)

theorem Cached.mono {caches caches' : Caches} (h : ∀ mem, caches mem <+: caches' mem)
    {mem : MemType} {addr : Ptr} {size : SizeT} {cache : CacheRef} {cacheData : Ptr}
    (hc : Cached chunk caches mem addr size cache cacheData) :
    Cached chunk caches' mem addr size cache cacheData := by
  obtain ⟨hmem, c, hget, hrest⟩ := hc
  refine ⟨hmem, c, ?_, hrest⟩
  obtain ⟨t, ht⟩ := h cache.mem
  have hlt := (List.getElem?_eq_some_iff.mp hget).1
  rw [Caches.get?, ← ht, List.getElem?_append_left hlt]
  exact hget

/-- The list of an item after `BUILD_CACHE`. -/
theorem buildCache_list (hc : chunk < 2 ^ 64) {l : List CacheEntry} {c : CacheEntry} {addr : Ptr}
    {size : SizeT} (h0 : 0 < chunk) (hlast : l.getLast? = some c) :
    ∃ l' c', (if addr ≥ (if addr + size > c.offs + BitVec.ofNat 64 chunk then addr
          else c.offs + BitVec.ofNat 64 chunk) then l ++ [initCache chunk addr] else l) = l' ∧
      l <+: l' ∧ (∀ c ∈ l', c ∈ l ∨ c = initCache chunk addr) ∧ l'.getLast? = some c' ∧
      (c' = c ∨ c'.offs = addr) ∧ (c.offs ≤ addr → c'.offs ≤ addr ∧
        (addr - c'.offs).toNat < chunk ∧ (size.toNat ≤ chunk → addr.toNat + size.toNat < 2 ^ 64 →
          (addr - c'.offs).toNat + size.toNat ≤ chunk)) := by
  by_cases hfit : addr ≥ if addr + size > c.offs + BitVec.ofNat 64 chunk then addr
      else c.offs + BitVec.ofNat 64 chunk
  · -- A new chunk starts with the item.
    rw [if_pos hfit]
    refine ⟨_, initCache chunk addr, rfl, List.prefix_append _ _, ?_, by simp, .inr rfl,
      fun _ => ⟨BitVec.le_refl _, ?_⟩⟩
    · intro c hc
      simpa using hc
    · have hself : addr - (initCache chunk addr).offs = 0#64 := BitVec.sub_self addr
      rw [hself]
      exact ⟨h0, fun hsize _ => by simpa using hsize⟩
  · rw [if_neg hfit]
    refine ⟨l, c, rfl, List.prefix_refl _, fun c hc => Or.inl hc, hlast, .inl rfl, fun hle => ?_⟩
    obtain ⟨hlt, hend⟩ := chunk_fits hc hle hfit
    exact ⟨hle, hlt, fun _ => hend⟩

/-- **One item**: the lists only grow, the last chunk of its list is the one it is assigned, and it
is in it, unless it is before the last one. -/
theorem buildCache_spec (h0 : 0 < chunk) (hc : chunk < 2 ^ 64) {caches : Caches} {ait : AddrEntry}
    {c : CacheEntry} (hlast : (caches ait.mem).getLast? = some c) :
    ∃ caches' cache cacheData, buildCache chunk caches ait = (caches', cache, cacheData) ∧
      cache.mem = ait.mem ∧ (∀ mem, caches mem <+: caches' mem) ∧ (∀ mem ≠ ait.mem, caches' mem = caches mem) ∧
      (caches.Fresh chunk → caches'.Fresh chunk) ∧
      (c.offs ≤ ait.addr → Cached chunk caches' ait.mem ait.addr ait.size cache cacheData) ∧
      ∃ c', (caches' ait.mem).getLast? = some c' ∧ (c' = c ∨ c'.offs = ait.addr) := by
  have hD : (caches ait.mem).getLastD default = c := by
    rw [List.getLastD_eq_getLast?, hlast]; rfl
  obtain ⟨l', c', hl', hpre, hmem, hlast', hoffs, hfit⟩ := buildCache_list hc h0 hlast
  have hD' : l'.getLastD default = c' := by rw [List.getLastD_eq_getLast?, hlast']; rfl
  refine ⟨Function.update caches ait.mem l', ⟨ait.mem, l'.length - 1⟩, ait.addr - c'.offs,
    ?_, rfl, ?_, ?_, ?_, fun hle => ⟨rfl, c', ?_, ?_, (hfit hle).2⟩, c', ?_, hoffs⟩
  · unfold buildCache
    simp only [hD, hl', hD']
  · intro mem
    by_cases hm : mem = ait.mem
    · subst hm
      rwa [Function.update_self]
    · rw [Function.update_of_ne hm]
  · intro mem hm
    exact Function.update_of_ne hm _ _
  · intro hfresh mem c hc
    by_cases hm : mem = ait.mem
    · subst hm
      rw [Function.update_self] at hc
      rcases hmem c hc with hc | rfl
      · exact hfresh _ c hc
      · exact ⟨rfl, rfl, List.length_replicate⟩
    · rw [Function.update_of_ne hm] at hc
      exact hfresh _ c hc
  · rw [Caches.get?, Function.update_self, ← List.getLast?_eq_getElem?, hlast']
  · rw [BitVec.add_comm]
    exact BitVec.sub_add_cancel _ _
  · rw [Function.update_self, hlast']

/-- **All items** that are not before the start of their list are in their chunks. -/
theorem buildCacheLists_spec (h0 : 0 < chunk) (hc : chunk < 2 ^ 64) {start : MemType → Ptr}
    {addrlist : List AddrEntry} : ∀ {caches : Caches}, addrlist.Pairwise (·.addr ≤ ·.addr) →
      caches.Before start addrlist → caches.Fresh chunk →
      ∃ caches' assigned, buildCacheLists chunk addrlist caches = (caches', assigned) ∧
        (∀ mem, caches mem <+: caches' mem) ∧ caches'.Fresh chunk ∧
        assigned.map (·.1) = addrlist.map (·.element) ∧
        ∀ ait ∈ addrlist, ∃ cache cacheData, (ait.element, cache, cacheData) ∈ assigned ∧
          cache.mem = ait.mem ∧ (start ait.mem ≤ ait.addr →
            Cached chunk caches' ait.mem ait.addr ait.size cache cacheData) := by
  induction addrlist with
  | nil =>
    intro caches _ _ hfresh
    exact ⟨caches, [], rfl, fun _ => List.prefix_refl _, hfresh, rfl, by simp⟩
  | cons ait addrlist ih =>
    intro caches hsort hbefore hfresh
    obtain ⟨c, hlast, hle⟩ := hbefore ait (by simp)
    obtain ⟨caches₁, cache, cacheData, h₁, hplace, hpre₁, hother, hfresh₁, hcached, c', hlast', hoffs⟩ :=
      buildCache_spec h0 hc hlast
    obtain ⟨hhead, hsort⟩ := List.pairwise_cons.mp hsort
    have hbefore₁ : caches₁.Before start addrlist := by
      intro a ha
      obtain ⟨ca, hca, hlea⟩ := hbefore a (by simp [ha])
      by_cases hm : a.mem = ait.mem
      · rw [hm] at hca ⊢
        cases hlast.symm.trans hca
        refine ⟨c', hlast', fun hstart => ?_⟩
        rcases hoffs with rfl | hoffs
        · exact hlea (by rw [hm]; exact hstart)
        · rw [hoffs]
          exact hhead a ha
      · rw [hother _ hm]
        exact ⟨ca, hca, hlea⟩
    obtain ⟨caches₂, assigned, h₂, hpre₂, hfresh₂, hkeys, hall⟩ :=
      ih hsort hbefore₁ (hfresh₁ hfresh)
    refine ⟨caches₂, (ait.element, cache, cacheData) :: assigned, ?_,
      fun mem => (hpre₁ mem).trans (hpre₂ mem), hfresh₂, by simp [hkeys], ?_⟩
    · rw [buildCacheLists, h₁]
      simp only [h₂]
    · intro a ha
      rcases List.mem_cons.mp ha with rfl | ha
      · exact ⟨cache, cacheData, by simp, hplace, fun hstart => (hcached (hle hstart)).mono hpre₂⟩
      · obtain ⟨cache', cacheData', hmem, hc'⟩ := hall a ha
        exact ⟨cache', cacheData', by simp [hmem], hc'⟩

end Chunks

/-! ## The items of a config -/

section Items

variable {en : CfgEntry} {e : Nat} {ait : AddrEntry} {cfg : List CfgEntry}

theorem mem_addrEntries : ait ∈ en.addrEntries e ↔ en.type.isCstr = false ∧
    (ait = ⟨en.addr, BitVec.ofNat 64 en.type.bytes, en.memType, (e, none)⟩ ∨
      ∃ k chk, (en.checks.getD [])[k]? = some chk ∧ chk.cfgRef = none ∧
        ait = ⟨chk.addr, BitVec.ofNat 64 chk.type.bytes, en.checkMemType chk, (e, some k)⟩) := by
  unfold CfgEntry.addrEntries
  cases en.type.isCstr with
  | true => simp
  | false =>
    simp only [Bool.false_eq_true, if_false, List.mem_cons, true_and]
    refine or_congr Iff.rfl ?_
    rw [List.mem_filterMap]
    constructor
    · rintro ⟨⟨chk, k⟩, hmem, hf⟩
      obtain ⟨href, hf⟩ := Option.ite_none_left_eq_some.mp hf
      exact ⟨k, chk, List.mem_zipIdx_iff_getElem?.mp hmem, by simpa using href,
        (Option.some.inj hf).symm⟩
    · rintro ⟨k, chk, hk, href, rfl⟩
      exact ⟨(chk, k), List.mem_zipIdx_iff_getElem?.mpr hk, by simp [href]⟩

theorem mem_addrList : ait ∈ addrList cfg ↔ ∃ (e : Nat) (en : CfgEntry),
    cfg[e]? = some en ∧ ait ∈ en.addrEntries e := by
  rw [addrList, List.mem_flatMap]
  constructor
  · rintro ⟨⟨en, e⟩, hmem, hait⟩
    exact ⟨e, en, List.mem_zipIdx_iff_getElem?.mp hmem, hait⟩
  · rintro ⟨e, en, he, hait⟩
    exact ⟨(en, e), List.mem_zipIdx_iff_getElem?.mpr he, hait⟩

theorem foldl_min_le {p : MemType × Ptr → Prop} [DecidablePred p] (l : List (MemType × Ptr)) :
    ∀ offs : Ptr, l.foldl (fun offs a => if p a ∧ a.2 < offs then a.2 else offs) offs ≤ offs ∧
      ∀ a ∈ l, p a → l.foldl (fun offs a => if p a ∧ a.2 < offs then a.2 else offs) offs ≤ a.2 := by
  induction l with
  | nil => intro offs; exact ⟨BitVec.le_refl _, by simp⟩
  | cons a l ih =>
    intro offs
    rw [List.foldl_cons]
    obtain ⟨hle, hall⟩ := ih (if p a ∧ a.2 < offs then a.2 else offs)
    have hstep : (if p a ∧ a.2 < offs then a.2 else offs) ≤ offs := by
      split
      · rename_i h; exact BitVec.le_of_lt h.2
      · exact BitVec.le_refl _
    refine ⟨BitVec.le_trans hle hstep, fun b hb hp => ?_⟩
    rcases List.mem_cons.mp hb with rfl | hb
    · refine BitVec.le_trans hle ?_
      split
      · exact BitVec.le_refl _
      · rename_i h
        exact BitVec.not_lt.mp fun hlt => h ⟨hp, hlt⟩
    · exact hall b hb hp

/-- No address is before the start of the first cache of the list that it is taken for. -/
theorem findCacheStart_le {a : MemType × Ptr} (hen : en ∈ cfg) (ha : a ∈ en.startAddrs) :
    findCacheStart cfg a.1 ≤ a.2 :=
  (foldl_min_le (p := fun b => b.1 = a.1) _ _).2 _ (List.mem_flatMap.mpr ⟨en, hen, ha⟩) rfl

theorem entry_start_le (hen : en ∈ cfg) (hcstr : en.type.isCstr = false) :
    findCacheStart cfg en.memType ≤ en.addr :=
  findCacheStart_le (a := (en.memType, en.addr)) hen (by simp [CfgEntry.startAddrs, hcstr])

/-- The line of a check is taken for the list of the check. -/
def CfgEntry.AtPlace (en : CfgEntry) (chk : CheckEntry) : Prop :=
  chk.outside = true → en.dynmem = none ∧ en.ptrmem = none

theorem CfgEntry.AtPlace.lineMemType {chk : CheckEntry} (h : en.AtPlace chk) :
    en.lineMemType chk = en.checkMemType chk := by
  unfold CfgEntry.lineMemType CfgEntry.checkMemType
  split
  · rename_i hout
    obtain ⟨hd, hp⟩ := h hout
    rw [hd, hp]
  · rfl

theorem check_start_le {chk : CheckEntry} (hen : en ∈ cfg) (hchk : chk ∈ en.checks.getD [])
    (href : chk.cfgRef = none) (hat : en.AtPlace chk) :
    findCacheStart cfg (en.checkMemType chk) ≤ chk.addr := by
  refine findCacheStart_le (a := (en.checkMemType chk, chk.addr)) hen ?_
  refine List.mem_append_right _ (List.mem_filterMap.mpr ⟨chk, hchk, ?_⟩)
  simp [href, hat.lineMemType]

theorem addrEntries_nodup (e : Nat) (en : CfgEntry) :
    ((en.addrEntries e).map (·.element)).Nodup := by
  have hsub : ∀ l : List (CheckEntry × Nat), (l.filterMap fun (chk, k) =>
      if chk.cfgRef.isSome then none
      else some (AddrEntry.mk chk.addr (BitVec.ofNat 64 chk.type.bytes) (en.checkMemType chk)
        (e, some k))).map (·.element) |>.Sublist (l.map fun a => (e, some a.2)) := by
    intro l
    induction l with
    | nil => exact List.Sublist.refl _
    | cons a l ih =>
      obtain ⟨chk, k⟩ := a
      rw [List.filterMap_cons, List.map_cons]
      cases hr : chk.cfgRef with
      | none =>
        simp only [hr, Option.isSome_none, Bool.false_eq_true, if_false, List.map_cons]
        exact ih.cons_cons _
      | some r =>
        simp only [hr, Option.isSome_some, if_true]
        exact ih.cons _
  unfold CfgEntry.addrEntries
  split
  · exact List.nodup_nil
  · rw [List.map_cons, List.nodup_cons]
    constructor
    · intro hmem
      obtain ⟨a, -, ha⟩ := List.mem_map.mp ((hsub _).subset hmem)
      cases ha
    · refine (hsub _).nodup ?_
      have hidx : ((en.checks.getD []).zipIdx.map fun a => ((e, some a.2) : Element)) =
          ((en.checks.getD []).zipIdx.map (·.2)).map fun k => (e, some k) := by
        rw [List.map_map]; rfl
      rw [hidx, List.zipIdx_map_snd]
      exact (List.nodup_range').map fun k k' h => by simpa using h

/-- An entry is in the list if it is no text. -/
theorem entry_mem_addrList {en : CfgEntry} (he : cfg[e]? = some en) :
    (en.type.isCstr = false → ⟨en.addr, BitVec.ofNat 64 en.type.bytes, en.memType,
      (e, none)⟩ ∈ addrList cfg) ∧
      (en.type.isCstr = true → (e, none) ∉ (addrList cfg).map (·.element)) := by
  refine ⟨fun hcstr => mem_addrList.mpr ⟨e, en, he, mem_addrEntries.mpr ⟨hcstr, Or.inl rfl⟩⟩,
    fun hcstr hmem => ?_⟩
  obtain ⟨ait, hait, helem⟩ := List.mem_map.mp hmem
  obtain ⟨e', en', he', hait'⟩ := mem_addrList.mp hait
  rcases mem_addrEntries.mp hait' with ⟨hcstr', rfl | ⟨k, chk, -, -, rfl⟩⟩
  · cases helem
    rw [he] at he'
    cases he'
    rw [hcstr] at hcstr'
    cases hcstr'
  · cases helem

/-- A check is in the list if it has an address, and its entry is no text. -/
theorem check_mem_addrList {en : CfgEntry} {k : Nat} {chk : CheckEntry} (he : cfg[e]? = some en)
    (hk : (en.checks.getD [])[k]? = some chk) :
    (en.type.isCstr = false → chk.cfgRef = none → ⟨chk.addr,
      BitVec.ofNat 64 chk.type.bytes, en.checkMemType chk, (e, some k)⟩ ∈ addrList cfg) ∧
      (en.type.isCstr = true ∨ chk.cfgRef ≠ none →
        (e, some k) ∉ (addrList cfg).map (·.element)) := by
  refine ⟨fun hcstr href => mem_addrList.mpr ⟨e, en, he, mem_addrEntries.mpr
    ⟨hcstr, Or.inr ⟨k, chk, hk, href, rfl⟩⟩⟩, fun hno hmem => ?_⟩
  obtain ⟨ait, hait, helem⟩ := List.mem_map.mp hmem
  obtain ⟨e', en', he', hait'⟩ := mem_addrList.mp hait
  rcases mem_addrEntries.mp hait' with ⟨hcstr', rfl | ⟨k', chk', hk', href', rfl⟩⟩
  · cases helem
  · cases helem
    rw [he] at he'
    cases he'
    rw [hk] at hk'
    cases hk'
    rcases hno with hno | hno
    · rw [hcstr'] at hno
      cases hno
    · exact hno href'

/-- A check of an entry after the caches were assigned. -/
theorem mem_checks_assignCaches {assigned : List (Element × CacheRef × Ptr)} {chk : CheckEntry}
    (h : chk ∈ (en.assignCaches assigned e).checks.getD []) :
    ∃ (k : Nat) (chk₀ : CheckEntry), (en.checks.getD [])[k]? = some chk₀ ∧
      chk = chk₀.assignCache (assigned.lookup (e, some k)) := by
  cases hc : en.checks with
  | none => simp [CfgEntry.assignCaches, hc] at h
  | some chks =>
    simp only [CfgEntry.assignCaches, hc, Option.map_some, Option.getD_some,
      List.mem_mapIdx] at h
    obtain ⟨k, hk, rfl⟩ := h
    exact ⟨k, _, List.getElem?_eq_getElem hk, rfl⟩

/-- Every item is in the list once. -/
theorem addrList_nodup (cfg : List CfgEntry) : ((addrList cfg).map (·.element)).Nodup := by
  rw [addrList, List.map_flatMap, List.nodup_flatMap]
  refine ⟨fun a _ => addrEntries_nodup a.2 a.1, ?_⟩
  have hidx : (cfg.zipIdx.map (·.2)).Nodup := by
    rw [List.zipIdx_map_snd]
    exact List.nodup_range'
  refine (List.pairwise_map.mp hidx).imp fun {a b} hne => ?_
  have helem : ∀ (x : CfgEntry × Nat), ∀ y ∈ (x.1.addrEntries x.2).map (·.element), y.1 = x.2 := by
    intro x y hy
    obtain ⟨ait, hait, rfl⟩ := List.mem_map.mp hy
    rcases mem_addrEntries.mp hait with ⟨-, rfl | ⟨k, chk, -, -, rfl⟩⟩ <;> rfl
  exact fun y ha hb => hne ((helem a y ha).symm.trans (helem b y hb))

end Items

/-! ## What `build_caches` gives -/

section Built

variable {chunk : Nat}

/-- Values are in their chunks, and so are address checks that stand in the section of their entry;
text, its checks and checks of value references have no cache. -/
structure Options.Built (chunk : Nat) (opt : Options) : Prop where
  fresh : opt.caches.Fresh chunk
  entry : ∀ en ∈ opt.entries, en.type.isCstr = false → ∃ r, en.cache = some r ∧
    Cached chunk opt.caches en.memType en.addr (BitVec.ofNat 64 en.type.bytes) r en.cacheData
  entry_cstr : ∀ en ∈ opt.entries, en.type.isCstr = true → en.cache = none
  check : ∀ en ∈ opt.entries, ∀ chk ∈ en.checks.getD [], en.type.isCstr = false →
    chk.cfgRef = none → ∃ r, chk.cache = some r ∧ (en.AtPlace chk →
      Cached chunk opt.caches (en.checkMemType chk) chk.addr (BitVec.ofNat 64 chk.type.bytes) r
        chk.cacheData)
  check_none : ∀ en ∈ opt.entries, ∀ chk ∈ en.checks.getD [],
    en.type.isCstr = true ∨ chk.cfgRef ≠ none → chk.cache = none

theorem lookup_of_mem {α β : Type} [BEq α] [LawfulBEq α] {l : List (α × β)} (hn : (l.map (·.1)).Nodup)
    {a : α} {b : β} (h : (a, b) ∈ l) : l.lookup a = some b := by
  obtain ⟨l₁, l₂, rfl⟩ := List.append_of_mem h
  refine List.lookup_eq_some_iff.mpr ⟨l₁, l₂, rfl, fun x hx => ?_⟩
  rw [List.map_append, List.map_cons] at hn
  exact bne_iff_ne.mpr ((List.nodup_append.mp hn).2.2 _ (List.mem_map_of_mem hx) _ List.mem_cons_self).symm

/-- An entry of the config, as it was before the caches were assigned. -/
theorem mem_buildCaches {opt : Options} {en' : CfgEntry}
    (h : en' ∈ (buildCaches chunk opt).entries) :
    ∃ (e : Nat) (en : CfgEntry) (assigned : List (Element × CacheRef × Ptr)),
      opt.entries[e]? = some en ∧ en' = en.assignCaches assigned e := by
  obtain ⟨e, he, rfl⟩ := List.mem_mapIdx.mp h
  exact ⟨e, _, _, List.getElem?_eq_getElem he, rfl⟩

/-- Sorted by address. -/
theorem sorted_addrlist (l : List AddrEntry) :
    (l.insertionSort (·.addr ≤ ·.addr)).Pairwise (·.addr ≤ ·.addr) := by
  have : Std.Total fun a b : AddrEntry => a.addr ≤ b.addr := ⟨fun a b => BitVec.le_total _ _⟩
  have : IsTrans AddrEntry fun a b => a.addr ≤ b.addr := ⟨fun a b c => BitVec.le_trans⟩
  exact List.pairwise_insertionSort _ _

/-- The caches and the assignments of `build_caches`. -/
theorem buildCaches_lists (h0 : 0 < chunk) (hc : chunk < 2 ^ 64) (opt : Options) :
    ∃ caches assigned, buildCaches chunk opt = { opt with
        entries := opt.entries.mapIdx (CfgEntry.assignCaches assigned), caches := caches } ∧
      caches.Fresh chunk ∧ (∀ x, x ∉ (addrList opt.entries).map (·.element) →
        assigned.lookup x = none) ∧
      ∀ ait ∈ addrList opt.entries, ∃ cache cacheData,
        assigned.lookup ait.element = some (cache, cacheData) ∧ cache.mem = ait.mem ∧
          (findCacheStart opt.entries ait.mem ≤ ait.addr →
            Cached chunk caches ait.mem ait.addr ait.size cache cacheData) := by
  have hperm := List.perm_insertionSort (fun a b : AddrEntry => a.addr ≤ b.addr)
    (addrList opt.entries)
  have hbefore : Caches.Before (findCacheStart opt.entries)
      (fun mem => [initCache chunk (findCacheStart opt.entries mem)])
      ((addrList opt.entries).insertionSort (·.addr ≤ ·.addr)) :=
    fun ait _ => ⟨_, rfl, id⟩
  have hfresh : Caches.Fresh chunk
      fun mem => [initCache chunk (findCacheStart opt.entries mem)] := by
    intro mem c hc
    obtain rfl := List.mem_singleton.mp hc
    exact ⟨rfl, rfl, List.length_replicate⟩
  obtain ⟨caches, assigned, heq, -, hfresh', hkeys, hall⟩ :=
    buildCacheLists_spec h0 hc (sorted_addrlist _) hbefore hfresh
  have hkeysperm : (assigned.map (·.1)).Perm ((addrList opt.entries).map (·.element)) := by
    rw [hkeys]
    exact hperm.map _
  have hnodup : (assigned.map (·.1)).Nodup := hkeysperm.nodup_iff.mpr (addrList_nodup _)
  refine ⟨caches, assigned, ?_, hfresh', fun x hx => ?_, fun ait hait => ?_⟩
  · unfold buildCaches
    simp only [heq]
  · refine List.lookup_eq_none_iff.mpr fun y hy => ?_
    have hmem : y.1 ∈ (addrList opt.entries).map (·.element) :=
      hkeysperm.mem_iff.mp (List.mem_map_of_mem hy)
    exact bne_iff_ne.mpr fun heq => hx (heq ▸ hmem)
  · obtain ⟨cache, cacheData, hmem, hcached⟩ := hall ait (hperm.mem_iff.mpr hait)
    exact ⟨cache, cacheData, lookup_of_mem hnodup hmem, hcached⟩

/-- **`build_caches`**: every item that is to be cached is in its chunk. -/
theorem buildCaches_built (h0 : 0 < chunk) (hc : chunk < 2 ^ 64) (opt : Options) :
    (buildCaches chunk opt).Built chunk := by
  obtain ⟨caches, assigned, heq, hfresh, hnone, hall⟩ := buildCaches_lists h0 hc opt
  rw [heq]
  refine ⟨hfresh, ?_, ?_, ?_, ?_⟩
  · intro en' hen' hcstr
    obtain ⟨e, he, rfl⟩ := List.mem_mapIdx.mp hen'
    obtain ⟨cache, cacheData, hlook, -, hcached⟩ :=
      hall _ ((entry_mem_addrList (List.getElem?_eq_getElem he)).1 hcstr)
    have hcached := hcached (entry_start_le (List.getElem_mem he) hcstr)
    refine ⟨cache, by simp [CfgEntry.assignCaches, hlook], ?_⟩
    simpa [CfgEntry.assignCaches, CfgEntry.memType, hlook] using hcached
  · intro en' hen' hcstr
    obtain ⟨e, he, rfl⟩ := List.mem_mapIdx.mp hen'
    have hlook := hnone _ ((entry_mem_addrList (List.getElem?_eq_getElem he)).2 hcstr)
    simp [CfgEntry.assignCaches, hlook]
  · intro en' hen' chk hmem hcstr href
    obtain ⟨e, he, rfl⟩ := List.mem_mapIdx.mp hen'
    obtain ⟨k, chk₀, hk, rfl⟩ := mem_checks_assignCaches hmem
    obtain ⟨cache, cacheData, hlook, -, hcached⟩ :=
      hall _ ((check_mem_addrList (List.getElem?_eq_getElem he) hk).1 hcstr href)
    refine ⟨cache, by simp [CheckEntry.assignCache, hlook], fun hat => ?_⟩
    have hcached := hcached (check_start_le (List.getElem_mem he) (List.mem_of_getElem? hk) href hat)
    simpa [CheckEntry.assignCache, CfgEntry.assignCaches, CfgEntry.checkMemType, hlook] using hcached
  · intro en' hen' chk hmem hno
    obtain ⟨e, he, rfl⟩ := List.mem_mapIdx.mp hen'
    obtain ⟨k, chk₀, hk, rfl⟩ := mem_checks_assignCaches hmem
    have hlook := hnone _ ((check_mem_addrList (List.getElem?_eq_getElem he) hk).2 hno)
    simp [CheckEntry.assignCache, hlook]

/-- A check is in the list of its entry, also behind the end of a section. -/
theorem buildCaches_check (h0 : 0 < chunk) (hc : chunk < 2 ^ 64) {opt : Options} {en : CfgEntry}
    {chk : CheckEntry} {r : CacheRef} (hen : en ∈ (buildCaches chunk opt).entries)
    (hchk : chk ∈ en.checks.getD []) (hr : chk.cache = some r) : r.mem = en.checkMemType chk := by
  obtain ⟨caches, assigned, heq, -, hnone, hall⟩ := buildCaches_lists h0 hc opt
  rw [heq] at hen
  obtain ⟨e, he, rfl⟩ := List.mem_mapIdx.mp hen
  obtain ⟨k, chk₀, hk, rfl⟩ := mem_checks_assignCaches hchk
  have hmem := check_mem_addrList (List.getElem?_eq_getElem he) hk
  have hr : (assigned.lookup (e, some k)).map (·.1) = some r := hr
  by_cases hno : opt.entries[e].type.isCstr = true ∨ chk₀.cfgRef ≠ none
  · rw [hnone _ (hmem.2 hno)] at hr
    cases hr
  · obtain ⟨hcstr, href⟩ := not_or.mp hno
    obtain ⟨cache, cacheData, hlook, hplace, -⟩ :=
      hall _ (hmem.1 (by simpa using hcstr) (not_not.mp href))
    rw [hlook] at hr
    cases hr
    exact hplace

end Built

end UgTrain
