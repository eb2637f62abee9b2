import UgTrain.ConfigRule
import UgTrain.RelocCaches

/-!
# The regions of an accepted config

`ConfigState.readConfig_regions`: each item of an accepted config is where its type says. An item on the
stack is in no library, and the stack is in use then. A library is in the list, and no library is
loaded yet. This is what the relocation needs (`parsed_of_regions`).
-/

namespace UgTrain

open CLib

namespace CfgReader

/-- The items are in their regions. -/
structure Regions (s : CfgReader) : Prop where
  items : ∀ en ∈ s.opt.entries, ∀ it ∈ en.items, InRegion s.opt it.type
  libs : ∀ lit ∈ s.opt.libs, lit.isLoaded = false

section Lines

variable {fl : FloatLib} {s s' : CfgReader} {e start : Nat} {en : CfgEntry} {line name : Str}

theorem activate_libs : (s.activate e).opt.libs = s.opt.libs ∧
    (s.activate e).opt.valOnStack = s.opt.valOnStack := by
  unfold activate
  split <;> exact ⟨rfl, rfl⟩

theorem Regions.libs_grow (h : s.Regions) {libs : List LibEntry} (hg : LibsGrow s.opt.libs libs) :
    ∀ lit ∈ libs, lit.isLoaded = false := by
  intro lit hm
  rcases hg.loaded lit hm with hm | hm
  · exact h.libs lit hm
  · exact hm

theorem readValue_regions (h : s.Regions) (hv : readValue fl s name line start = .ok s') :
    s'.Regions := by
  obtain ⟨s₁, en, behind, dynval, g, hentry, -, hs'⟩ := readValue_cases hv
  obtain ⟨-, hen⟩ := parseEntry_sameLists hentry
  obtain ⟨-, -, hchecks, hin, hgrow, hstack⟩ := parseEntry_cases hentry
  obtain ⟨hentries, hlibs, hval⟩ : s'.opt.entries = s.opt.entries ++ [{ en with dynval := dynval }] ∧
      s'.opt.libs = s₁.opt.libs ∧ s'.opt.valOnStack = s₁.opt.valOnStack := by
    rw [← hen]
    rcases hs' with rfl | rfl
    · exact ⟨rfl, rfl, rfl⟩
    · exact ⟨activate_entries, activate_libs⟩
  have hmono : ∀ {type : VType}, InRegion s₁.opt type → InRegion s'.opt type := fun hin =>
    hin.mono (hlibs ▸ .refl _) fun hv => hval ▸ hv
  refine ⟨fun en' hm it hit => ?_, h.libs_grow (hlibs ▸ hgrow)⟩
  rw [hentries] at hm
  rcases List.mem_append.mp hm with hm | hm
  · exact hmono ((h.items en' hm it hit).mono hgrow hstack)
  · obtain rfl := List.mem_singleton.mp hm
    have hitems : ({ en with dynval := dynval } : CfgEntry).items =
        [⟨en.type, en.addr, en.cache, en.cacheData⟩] := by
      simp [CfgEntry.items, hchecks]
    rw [hitems, List.mem_singleton] at hit
    exact hmono (hit ▸ hin)

theorem readCheck_regions {objcheck : Bool} (h : s.Regions)
    (hc : s.readCheck fl objcheck line start = .ok s') : s'.Regions := by
  obtain ⟨s₁, en, a, type, chks, _, _, hlast, hregion, hchks, rfl⟩ := readCheck_cases hc
  obtain ⟨-, hen⟩ := setRegion_sameLists hregion
  obtain ⟨hin, hgrow, hstack⟩ := setRegion_region hregion
  have hold : ∀ en' ∈ s.opt.entries, ∀ it ∈ en'.items, InRegion s₁.opt it.type :=
    fun en' hm it hit => (h.items en' hm it hit).mono hgrow hstack
  refine ⟨fun en' hm it hit => ?_, h.libs_grow hgrow⟩
  refine @InRegion.mono it.type s₁.opt _ ?_ (.refl _) id
  rcases List.mem_append.mp hm with hm | hm
  · exact hold en' (hen ▸ List.mem_of_mem_dropLast hm) it hit
  · obtain rfl := List.mem_singleton.mp hm
    have hlast := List.mem_of_getLast? hlast
    rcases List.mem_cons.mp hit with rfl | hit
    · exact hold en hlast _ List.mem_cons_self
    · obtain ⟨chk, hchk, rfl⟩ := List.mem_map.mp hit
      rcases List.mem_append.mp hchk with hchk | hchk
      · exact hold en hlast _ (List.mem_cons_of_mem _ (List.mem_map_of_mem hchk))
      · exact hin.of_region (hchks chk hchk).1 (hchks chk hchk).2

end Lines

end CfgReader

theorem items_assignCaches {assigned : List (Element × CacheRef × Ptr)} {e : Nat} {en : CfgEntry}
    {it : StaticItem} (h : it ∈ (en.assignCaches assigned e).items) :
    ∃ it₀ ∈ en.items, it.type = it₀.type := by
  rcases List.mem_cons.mp h with rfl | h
  · exact ⟨_, List.mem_cons_self, rfl⟩
  · obtain ⟨chk, hchk, rfl⟩ := List.mem_map.mp h
    obtain ⟨k, chk₀, hk, rfl⟩ := mem_checks_assignCaches hchk
    exact ⟨chk₀.item, List.mem_cons_of_mem _ (List.mem_map_of_mem (List.mem_of_getElem? hk)), rfl⟩

/-- The items of an entry, as they were before the caches were assigned. -/
theorem items_buildCaches {chunk : Nat} {opt : Options} {en' : CfgEntry} {it' : StaticItem}
    (hen : en' ∈ (buildCaches chunk opt).entries) (hit : it' ∈ en'.items) :
    ∃ en ∈ opt.entries, en.isStatic = en'.isStatic ∧ ∃ it ∈ en.items, it'.type = it.type := by
  obtain ⟨e, en, assigned, he, rfl⟩ := mem_buildCaches hen
  exact ⟨en, List.mem_of_getElem? he, rfl, items_assignCaches hit⟩

namespace ConfigState

/-- **Each line** leaves the items in their regions. -/
theorem regions_rule (fl : FloatLib) : LineRule fl CfgReader.Regions where
  init := ⟨fun _ hm => absurd hm List.not_mem_nil, fun _ hm => absurd hm List.not_mem_nil⟩
  value _ _ _ _ _ h hv := CfgReader.readValue_regions h hv
  check _ _ _ _ _ h hc := CfgReader.readCheck_regions h hc
  pushClass _ _ _ h _ := ⟨fun en hm it hit => (h.items en hm it hit).mono (.refl _) id, h.libs⟩
  addConst _ _ _ h := ⟨fun en hm it hit => (h.items en hm it hit).mono (.refl _) id, h.libs⟩
  setGrow _ _ _ h := ⟨fun en hm it hit => (h.items en hm it hit).mono (.refl _) id, h.libs⟩
  pushSection _ _ _ h _ := ⟨fun en hm it hit => (h.items en hm it hit).mono (.refl _) id, h.libs⟩
  other s s' h hs := by
    refine ⟨fun en hm it hit => ?_, h.libs_grow hs.libs⟩
    rw [congrArg (·.entries) hs.cfg] at hm
    exact (h.items en hm it hit).mono hs.libs fun hv => hs.valOnStack ▸ hv
  caches s chunk h := by
    refine ⟨fun en' hm it' hit => ?_, h.libs⟩
    obtain ⟨en, hen, -, it, hit, htype⟩ := items_buildCaches hm hit
    rw [htype]
    exact (h.items en hen it hit).mono (.refl _) id

section Config

variable {fl : FloatLib} {chunk n lnr : Nat} {cfgPath : Str} {preloadLib : Option Str}
  {procName : Str} {lines : List Str} {s : ConfigState}

/-- **An accepted config** has its items in their regions. -/
theorem readConfig_regions (h : readConfig fl chunk n cfgPath preloadLib lines = some (.ok s)) :
    s.toCfgReader.Regions :=
  readConfig_rule (regions_rule fl) h

end Config

end ConfigState

theorem parsed_of_regions {s : CfgReader} (h : s.Regions) : s.opt.Parsed :=
  ⟨fun en hen _ it hit hs => ((h.items en hen it hit).stack hs).1,
    fun en hen _ it hit hs => ((h.items en hen it hit).stack hs).2, h.libs⟩

end UgTrain
