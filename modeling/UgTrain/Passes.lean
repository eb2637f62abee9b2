import UgTrain.Reloc
import UgTrain.Run

/-!
# What a pass does

`Pass.relocEntries_eq`: a pass that finds a cache for every item that moves gives each entry its new
form, and moves the caches of these items by the rule `g` of their list, each of them once
(`Caches.moved`). Otherwise it follows a null pointer (`Pass.relocEntries_ok`).
-/

namespace UgTrain

open CLib

/-! ## Moved caches -/

/-- The caches of `rs` were moved by `g`, unless they had been moved before. -/
def Caches.moved (g : CacheRef → Ptr → Ptr) (rs : List CacheRef) (caches : Caches) : Caches :=
  fun mem => (caches mem).mapIdx fun i c =>
    if (⟨mem, i⟩ : CacheRef) ∈ rs ∧ c.isDirty = false then
      { c with isDirty := true, offs := g ⟨mem, i⟩ c.offs }
    else c

section Moved

variable {g : CacheRef → Ptr → Ptr} {rs : List CacheRef} {caches : Caches} {r : CacheRef}

@[simp] theorem moved_nil : caches.moved g [] = caches := by
  funext mem
  refine List.ext_getElem? fun i => ?_
  simp [Caches.moved]

theorem moved_get? : (caches.moved g rs).get? r = (caches.get? r).map fun c =>
    if r ∈ rs ∧ c.isDirty = false then { c with isDirty := true, offs := g r c.offs } else c := by
  simp [Caches.get?, Caches.moved]

theorem Caches.ext_get? {caches caches' : Caches} (h : ∀ r, caches.get? r = caches'.get? r) :
    caches = caches' := by
  funext mem
  exact List.ext_getElem? fun i => h ⟨mem, i⟩

theorem modify_get? {f : CacheEntry → CacheEntry} {r' : CacheRef} :
    (caches.modify r f).get? r' = if r' = r then (caches.get? r).map f else caches.get? r' := by
  obtain ⟨mem, i⟩ := r
  obtain ⟨mem', i'⟩ := r'
  simp only [Caches.get?, Caches.modify]
  by_cases hm : mem' = mem
  · subst hm
    rw [Function.update_self, List.getElem?_modify]
    by_cases hi : i = i'
    · subst hi
      simp
    · have hne : CacheRef.mk mem' i' ≠ ⟨mem', i⟩ := by
        rintro ⟨⟩
        exact hi rfl
      rw [if_neg hne]
      simp [hi]
  · have hne : CacheRef.mk mem' i' ≠ ⟨mem, i⟩ := by
      rintro ⟨⟩
      exact hm rfl
    rw [if_neg hne, Function.update_of_ne hm]

/-- One more cache. -/
theorem moveCache_moved {f : Ptr → Ptr} (hf : f = g r) :
    moveCache f (some r) (caches.moved g rs) = .ok (caches.moved g (rs ++ [r])) := by
  subst hf
  unfold moveCache
  refine congrArg Except.ok (Caches.ext_get? fun r' => ?_)
  rw [modify_get?, moved_get?, moved_get?, moved_get?]
  by_cases hr : r' = r
  · subst hr
    rw [if_pos rfl, Option.map_map]
    refine congrArg (Option.map · _) (funext fun c => ?_)
    by_cases hd : c.isDirty = true <;> by_cases hmem : r' ∈ rs <;> simp [hd, hmem]
  · rw [if_neg hr]
    refine congrArg (Option.map · _) (funext fun c => ?_)
    simp [hr]

end Moved

/-! ## The pass -/

/-- A value or a check, as far as a pass sees it. -/
structure StaticItem where
  type : VType
  addr : Ptr
  cache : Option CacheRef
  cacheData : Ptr

def CheckEntry.item (chk : CheckEntry) : StaticItem :=
  ⟨chk.type, chk.addr, chk.cache, chk.cacheData⟩

/-- The entry and its checks. -/
def CfgEntry.items (en : CfgEntry) : List StaticItem :=
  ⟨en.type, en.addr, en.cache, en.cacheData⟩ :: (en.checks.getD []).map CheckEntry.item

section Spec

variable (p : Pass)

def Pass.applyItem (enType : VType) (it : StaticItem) : StaticItem :=
  match p enType it.type with
  | .ok (some m) => { it with addr := m.addr it.addr, type := m.type }
  | _ => it

def Pass.applyCheck (enType : VType) (chk : CheckEntry) : CheckEntry :=
  match p enType chk.type with
  | .ok (some m) => { chk with addr := m.addr chk.addr, type := m.type }
  | _ => chk

/-- The new form of an entry. -/
def Pass.apply (en : CfgEntry) : CfgEntry :=
  if en.isStatic then
    let checks := en.checks.map (·.map (p.applyCheck en.type))
    match p en.type en.type with
    | .ok (some m) => { en with addr := m.addr en.addr, type := m.type, checks := checks }
    | _ => { en with checks := checks }
  else en

/-- The cache that an item moves. -/
def Pass.touches (enType : VType) (it : StaticItem) : Option CacheRef :=
  match p enType it.type with
  | .ok (some _) => it.cache
  | _ => none

/-- No null pointer is followed: neither by the pass itself, nor to a cache. -/
def Pass.Ok (enType : VType) (it : StaticItem) : Prop :=
  ∃ o, p enType it.type = .ok o ∧ (o.isSome = true → it.cache ≠ none)

/-- The cache of the item moves by the rule of its list. -/
def Pass.Follows (g : CacheRef → Ptr → Ptr) (enType : VType) (it : StaticItem) : Prop :=
  ∀ m r, p enType it.type = .ok (some m) → it.cache = some r → m.offs = g r

def Pass.touched (cfg : List CfgEntry) : List CacheRef :=
  (cfg.filter (·.isStatic)).flatMap fun en => en.items.filterMap (p.touches en.type)

variable {p : Pass} {g : CacheRef → Ptr → Ptr} {caches : Caches}

theorem Pass.items_apply {en : CfgEntry} (hs : en.isStatic = true) :
    (p.apply en).items = en.items.map (p.applyItem en.type) := by
  have hchk : ∀ chk : CheckEntry, (p.applyCheck en.type chk).item = p.applyItem en.type chk.item := by
    intro chk
    show _ = match p en.type chk.type with
      | .ok (some m) => { chk.item with addr := m.addr chk.addr, type := m.type }
      | _ => chk.item
    unfold Pass.applyCheck
    split <;> rfl
  have hchks : ((en.checks.map (·.map (p.applyCheck en.type))).getD []).map CheckEntry.item =
      ((en.checks.getD []).map CheckEntry.item).map (p.applyItem en.type) := by
    cases en.checks with
    | none => rfl
    | some chks => simp [hchk]
  rw [Pass.apply, if_pos hs]
  unfold CfgEntry.items
  rw [List.map_cons]
  unfold Pass.applyItem at *
  split <;> rename_i h <;> simp only [h, hchks]

theorem Pass.relocChecks_eq {en : CfgEntry} (chks : List CheckEntry) : ∀ rs : List CacheRef,
    (∀ chk ∈ chks, p.Ok en.type chk.item ∧ p.Follows g en.type chk.item) →
      p.relocChecks en chks (caches.moved g rs) = .ok (chks.map (p.applyCheck en.type),
        caches.moved g (rs ++ (chks.map CheckEntry.item).filterMap (p.touches en.type))) := by
  induction chks with
  | nil => intro rs _; simp [Pass.relocChecks]
  | cons chk chks ih =>
    intro rs hok
    have ih := fun rs => ih rs fun c hc => hok c (by simp [hc])
    obtain ⟨⟨o, ho, hcache⟩, hf⟩ := hok chk (by simp)
    have ho : p en.type chk.type = .ok o := ho
    rw [Pass.relocChecks, Pass.relocCheck, ho]
    cases o with
    | none =>
      have hno : p.touches en.type chk.item = none := by simp [Pass.touches, CheckEntry.item, ho]
      have happ : p.applyCheck en.type chk = chk := by simp [Pass.applyCheck, ho]
      simp only [Run.ok_bind, pure, Except.pure, ih, List.map_cons, happ, List.filterMap_cons_none hno]
    | some m =>
      obtain ⟨r, hr⟩ := Option.ne_none_iff_exists'.mp (hcache rfl)
      have htouch : p.touches en.type chk.item = some r := by
        simp [Pass.touches, CheckEntry.item, ho, ← hr]
      have happ : p.applyCheck en.type chk =
          { chk with addr := m.addr chk.addr, type := m.type } := by simp [Pass.applyCheck, ho]
      have hfr : m.offs = g r := hf m r ho hr
      have hr : chk.cache = some r := hr
      simp only [Run.ok_bind, pure, Except.pure, hr, moveCache_moved hfr, ih, List.map_cons, happ,
        List.filterMap_cons_some htouch, List.append_assoc, List.singleton_append]

theorem Pass.relocItems_eq {en : CfgEntry} (hs : en.isStatic = true)
    (hok : ∀ it ∈ en.items, p.Ok en.type it ∧ p.Follows g en.type it) (rs : List CacheRef) :
    p.relocItems en (caches.moved g rs) =
      .ok (p.apply en, caches.moved g (rs ++ en.items.filterMap (p.touches en.type))) := by
  have hchecks := fun rs chks (hc : en.checks = some chks) =>
    @Pass.relocChecks_eq p g caches en chks rs fun chk hm =>
      hok _ (List.mem_cons_of_mem _ (List.mem_map.mpr ⟨chk, by rw [hc]; exact hm, rfl⟩))
  obtain ⟨⟨o, ho, hcache⟩, hf⟩ := hok _ List.mem_cons_self
  have ho : p en.type en.type = .ok o := ho
  have hitems : en.items = ⟨en.type, en.addr, en.cache, en.cacheData⟩ ::
      (en.checks.getD []).map CheckEntry.item := rfl
  rw [Pass.relocItems, Pass.relocEntry, Pass.apply, if_pos hs, hitems, ho]
  cases o with
  | none =>
    have hno : p.touches en.type ⟨en.type, en.addr, en.cache, en.cacheData⟩ = none := by
      simp [Pass.touches, ho]
    rw [List.filterMap_cons_none hno]
    cases hc : en.checks with
    | none =>
      have hself : { en with checks := none } = en := by rw [← hc]
      simp [pure, Except.pure, hself]
    | some chks =>
      simp only [Run.ok_bind, hchecks rs chks hc, pure, Except.pure]
      rfl
  | some m =>
    obtain ⟨r, hr⟩ := Option.ne_none_iff_exists'.mp (hcache rfl)
    have htouch : p.touches en.type ⟨en.type, en.addr, en.cache, en.cacheData⟩ = some r := by
      simp [Pass.touches, ho, ← hr]
    have hfr : m.offs = g r := hf m r ho hr
    have hr : en.cache = some r := hr
    rw [List.filterMap_cons_some htouch]
    cases hc : en.checks with
    | none => simp [hr, moveCache_moved hfr, pure, Except.pure]
    | some chks =>
      simp only [hr, moveCache_moved hfr, Run.ok_bind, hchecks (rs ++ [r]) chks hc, pure,
        Except.pure, List.append_assoc, List.singleton_append]
      rfl

/-- **A pass**: every entry gets its new form, every cache of an item that moves is moved once. -/
theorem Pass.relocEntries_eq (cfg : List CfgEntry) : ∀ rs : List CacheRef,
    (∀ en ∈ cfg, en.isStatic = true → ∀ it ∈ en.items, p.Ok en.type it ∧ p.Follows g en.type it) →
      p.relocEntries cfg (caches.moved g rs) =
        .ok (cfg.map p.apply, caches.moved g (rs ++ p.touched cfg)) := by
  induction cfg with
  | nil => intro rs _; simp [Pass.relocEntries, Pass.touched]
  | cons en cfg ih =>
    intro rs h
    have ih := fun rs => ih rs fun en hen => h en (by simp [hen])
    rw [Pass.relocEntries]
    by_cases hs : en.isStatic = true
    · rw [if_pos hs, Pass.relocItems_eq hs (h en (by simp) hs)]
      simp only [Run.ok_bind, ih, pure, Except.pure, List.map_cons]
      simp [Pass.touched, hs]
    · have happ : p.apply en = en := by rw [Pass.apply, if_neg hs]
      rw [if_neg hs]
      simp only [Run.ok_bind, ih, pure, Except.pure, List.map_cons, happ]
      simp [Pass.touched, hs]

theorem Pass.relocChecks_ok {en : CfgEntry} {chks : List CheckEntry} :
    ∀ {caches : Caches} {res}, p.relocChecks en chks caches = .ok res →
      ∀ chk ∈ chks, p.Ok en.type chk.item := by
  induction chks with
  | nil => intro caches res _ chk hchk; cases hchk
  | cons chk chks ih =>
    intro caches res h c hc
    obtain ⟨⟨chk₁, caches₁⟩, h₁, h⟩ := Run.bind_eq_ok.mp h
    obtain ⟨⟨chks₁, caches₂⟩, h₂, -⟩ := Run.bind_eq_ok.mp h
    obtain ⟨o, ho, h₁⟩ := Run.bind_eq_ok.mp h₁
    rcases List.mem_cons.mp hc with rfl | hc
    · refine ⟨o, ho, fun hsome hnone => ?_⟩
      obtain ⟨m, rfl⟩ := Option.isSome_iff_exists.mp hsome
      have hnone : c.cache = none := hnone
      simp only [hnone, moveCache] at h₁
      cases h₁
    · exact ih h₂ c hc

theorem Pass.relocItems_ok {en : CfgEntry} {res} (h : p.relocItems en caches = .ok res) :
    ∀ it ∈ en.items, p.Ok en.type it := by
  intro it hit
  obtain ⟨⟨en₂, caches₃⟩, h₃, h₄⟩ := Run.bind_eq_ok.mp h
  rcases List.mem_cons.mp hit with rfl | hit
  · obtain ⟨o, ho, h₃⟩ := Run.bind_eq_ok.mp h₃
    refine ⟨o, ho, fun hsome hnone => ?_⟩
    obtain ⟨m, rfl⟩ := Option.isSome_iff_exists.mp hsome
    have hnone : en.cache = none := hnone
    simp only [hnone, moveCache] at h₃
    cases h₃
  · obtain ⟨chk, hchk, rfl⟩ := List.mem_map.mp hit
    cases hc : en.checks with
    | none => simp [hc] at hchk
    | some chks =>
      simp only [hc] at h₄
      obtain ⟨⟨chks₁, caches₄⟩, h₅, -⟩ := Run.bind_eq_ok.mp h₄
      exact Pass.relocChecks_ok h₅ chk (by simpa [hc] using hchk)

/-- A pass that returns has followed no null pointer. -/
theorem Pass.relocEntries_ok {cfg : List CfgEntry} : ∀ {caches : Caches} {res},
    p.relocEntries cfg caches = .ok res →
      ∀ en ∈ cfg, en.isStatic = true → ∀ it ∈ en.items, p.Ok en.type it := by
  induction cfg with
  | nil => intro _ _ _ en hen; cases hen
  | cons en cfg ih =>
    intro caches res h en' hen' hs
    obtain ⟨caches₁, res', h₁, h₂⟩ : ∃ caches₁ res',
        (en.isStatic = true → ∃ en₁, p.relocItems en caches = .ok (en₁, caches₁)) ∧
          p.relocEntries cfg caches₁ = .ok res' := by
      rw [Pass.relocEntries] at h
      split at h
      · obtain ⟨⟨en₁, caches₁⟩, h₁, h⟩ := Run.bind_eq_ok.mp h
        obtain ⟨res', h₂, -⟩ := Run.bind_eq_ok.mp h
        exact ⟨caches₁, res', fun _ => ⟨en₁, h₁⟩, h₂⟩
      · rename_i hno
        rw [Run.ok_bind] at h
        obtain ⟨res', h₂, -⟩ := Run.bind_eq_ok.mp h
        exact ⟨caches, res', fun hs => absurd hs hno, h₂⟩
    rcases List.mem_cons.mp hen' with rfl | hen'
    · obtain ⟨en₁, h₁⟩ := h₁ hs
      exact Pass.relocItems_ok h₁
    · exact ih h₂ en' hen' hs

theorem Pass.mem_touched {cfg : List CfgEntry} {r : CacheRef} : r ∈ p.touched cfg ↔
    ∃ en ∈ cfg, en.isStatic = true ∧ ∃ it ∈ en.items, it.cache = some r ∧
      ∃ m, p en.type it.type = .ok (some m) := by
  simp only [Pass.touched, List.mem_flatMap, List.mem_filter, List.mem_filterMap]
  constructor
  · rintro ⟨en, ⟨hen, hs⟩, it, hit, ht⟩
    unfold Pass.touches at ht
    split at ht
    · rename_i m hm
      exact ⟨en, hen, hs, it, hit, ht, m, hm⟩
    · cases ht
  · rintro ⟨en, hen, hs, it, hit, hr, m, hm⟩
    exact ⟨en, ⟨hen, hs⟩, it, hit, by simp [Pass.touches, hm, hr]⟩

end Spec

/-! ## Caches after a pass -/

section Shift

variable {g : CacheRef → Ptr → Ptr} {rs : List CacheRef} {caches caches' : Caches} {r : CacheRef}

/-- No cache is dirty. -/
def Caches.Clean (caches : Caches) : Prop := ∀ r c, caches.get? r = some c → c.isDirty = false

/-- The caches of `rs` start where `g` says, the others where they did. -/
def Caches.Shifted (g : CacheRef → Ptr → Ptr) (rs : List CacheRef) (caches caches' : Caches) : Prop :=
  ∀ r, caches'.get? r = (caches.get? r).map fun c =>
    { c with offs := if r ∈ rs then g r c.offs else c.offs }

theorem Caches.Shifted.clean (h : caches.Shifted g rs caches') (hc : caches.Clean) :
    caches'.Clean := by
  intro r c hr
  rw [h r] at hr
  obtain ⟨c₀, hc₀, rfl⟩ := Option.map_eq_some_iff.mp hr
  exact hc r c₀ hc₀

/-- After a pass the dirty flags are cleared in the lists `M` whose caches were moved. -/
theorem shifted_moved {M : MemType → Prop} [DecidablePred M] (hc : caches.Clean)
    (hrs : ∀ r ∈ rs, M r.mem)
    (h : ∀ mem, caches' mem = if M mem then (caches.moved g rs mem).map clearDirty
      else caches.moved g rs mem) : caches.Shifted g rs caches' := by
  intro r
  have hget : caches'.get? r = if M r.mem then ((caches.moved g rs).get? r).map clearDirty
      else (caches.moved g rs).get? r := by
    unfold Caches.get?
    rw [h]
    split <;> simp
  rw [hget, moved_get?]
  cases hr : caches.get? r with
  | none => simp
  | some c =>
    have hd := hc r c hr
    by_cases hmem : r ∈ rs
    · have hM : M r.mem := hrs r hmem
      simp [hmem, hM, hd, clearDirty]
    · by_cases hM : M r.mem <;> simp [hmem, hM, clearDirty, ← hd]

/-- **A pass from clean caches**: it returns exactly if every item can be moved, and then the
caches of the items that move are shifted by the rule of their list. -/
theorem Pass.relocEntries_spec {p : Pass} (cfg : List CfgEntry) {M : MemType → Prop}
    [DecidablePred M] (hc : caches.Clean)
    (hf : ∀ en ∈ cfg, en.isStatic = true → ∀ it ∈ en.items, p.Follows g en.type it)
    (hM : ∀ r ∈ p.touched cfg, M r.mem) :
    (∀ res, p.relocEntries cfg caches = .ok res →
      (∀ en ∈ cfg, en.isStatic = true → ∀ it ∈ en.items, p.Ok en.type it) ∧
        res.1 = cfg.map p.apply ∧ caches.Shifted g (p.touched cfg)
          fun mem => if M mem then (res.2 mem).map clearDirty else res.2 mem) ∧
      ((∀ en ∈ cfg, en.isStatic = true → ∀ it ∈ en.items, p.Ok en.type it) →
        ∃ res, p.relocEntries cfg caches = .ok res) := by
  have hrun : (∀ en ∈ cfg, en.isStatic = true → ∀ it ∈ en.items, p.Ok en.type it) →
      p.relocEntries cfg caches = .ok (cfg.map p.apply, caches.moved g (p.touched cfg)) := by
    intro hok
    have := @Pass.relocEntries_eq p g caches cfg [] fun en hen hs it hit =>
      ⟨hok en hen hs it hit, hf en hen hs it hit⟩
    rwa [moved_nil, List.nil_append] at this
  refine ⟨fun res h => ?_, fun hok => ⟨_, hrun hok⟩⟩
  have hok := Pass.relocEntries_ok h
  rw [hrun hok] at h
  cases h
  exact ⟨hok, rfl, shifted_moved hc hM fun mem => rfl⟩

end Shift

end UgTrain
