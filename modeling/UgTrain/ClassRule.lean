import UgTrain.ConfigMsg
import UgTrain.ConfigRule

/-!
# The classes of an accepted config

`ConfigState.readConfig_wellFormed`: the classes that `read_config` gives have what the transfer to
libmemhack needs (`CfgMem.WellFormed`). Their numbers are of 32 bits, no library has the name of the
executable, and an item is not relocated yet (`readConfig_parsed`).

`ConfigState.Classes` is what each line keeps. A new library string has the number of those before
it (`numLibs`), so that the string of a class is its own.
-/

namespace UgTrain

open CLib

/-- What `PARSE_DYNMEM_ESSENTIALS` gives. -/
structure DynMemEssentials.Parsed (es : DynMemEssentials) : Prop where
  size : es.memSize.toNat < 2 ^ 32
  codeOffs : es.codeOffs = es.codeAddr
  /-- The name `exe` stands for no library. -/
  lib : ∀ lib ∈ es.lib, lib.name ≠ exeLib

/-- What `parse_growing` gives. -/
structure GrowEntry.Parsed (grow : GrowEntry) : Prop where
  sizes : grow.sizeMin.toNat < 2 ^ 32 ∧ grow.sizeMax.toNat < 2 ^ 32
  codeOffs : grow.codeOffs = grow.codeAddr
  lib : ∀ lib ∈ grow.lib, lib.name ≠ exeLib

structure DynMemEntry.Parsed (dm : DynMemEntry) : Prop where
  essentials : ∀ es ∈ dm.essentials, es.Parsed
  grow : ∀ grow ∈ dm.grow, grow.Parsed

/-- What the lines about classes and values give. -/
structure ConfigState.Classes (s : ConfigState) : Prop where
  sorted : (s.opt.entries.filterMap (·.dynmem)).Pairwise (· ≤ ·)
  valid : ∀ d, Refs s.opt.entries d → d < s.opt.dynmems.length
  /-- The class that is open is the last one. -/
  last : ∀ d ∈ s.inDynmem, d + 1 = s.opt.dynmems.length
  keys : ∃ ks : List Nat, s.opt.dynmems.map (·.key) = ks.map some ∧ ks.Nodup ∧ ∀ k ∈ ks, k < s.numLibs
  parsed : ∀ dm ∈ s.opt.dynmems, dm.Parsed

/-! ## The text of a class -/

section Text

variable {fl : FloatLib} {id start : Nat} {line : Str} {es : DynMemEssentials} {grow : GrowEntry}

theorem parsePicLib_ne (line : Str) (start : Nat) : parsePicLib line start ≠ exeLib := by
  unfold parsePicLib
  dsimp only
  split
  · exact (List.cons_ne_nil _ _).symm
  · rename_i hno
    exact fun h => hno (.inl h)

theorem setWidth_lt (n : U32) : (n.setWidth 64).toNat < 2 ^ 32 := by
  rw [BitVec.toNat_setWidth_of_le (by decide)]
  exact n.isLt

theorem parseEssentials_parsed (h : parseEssentials fl id line start = .ok es) :
    es.Parsed ∧ es.lib.map (·.id) = some id := by
  obtain ⟨⟨memSize, start₁⟩, -, h⟩ := Run.bind_eq_ok.mp h
  obtain ⟨⟨codeAddr, start₂⟩, -, h⟩ := Run.bind_eq_ok.mp h
  obtain ⟨⟨stackOffs, start₃⟩, -, h⟩ := Run.bind_eq_ok.mp h
  cases h
  refine ⟨⟨setWidth_lt memSize, rfl, fun lib hlib => ?_⟩, rfl⟩
  cases hlib
  exact parsePicLib_ne line start₃

theorem parseGrowing_lib (h : parseGrowing fl id line start = .ok grow) :
    grow.Parsed ∧ grow.lib.map (·.id) = some id := by
  obtain ⟨⟨sizeMin, start₁⟩, -, h⟩ := Run.bind_eq_ok.mp h
  dsimp only at h
  split at h
  · cases h
  obtain ⟨⟨sizeMax, start₂⟩, -, h⟩ := Run.bind_eq_ok.mp h
  dsimp only at h
  split at h
  · cases h
  split at h
  · cases h
  obtain ⟨⟨type, add, start₃⟩, -, h⟩ := Run.bind_eq_ok.mp h
  obtain ⟨⟨codeAddr, start₄⟩, -, h⟩ := Run.bind_eq_ok.mp h
  obtain ⟨⟨stackOffs, start₅⟩, -, h⟩ := Run.bind_eq_ok.mp h
  cases h
  refine ⟨⟨⟨setWidth_lt sizeMin, setWidth_lt sizeMax⟩, rfl, fun lib hlib => ?_⟩, rfl⟩
  cases hlib
  exact parsePicLib_ne line start₅

end Text

/-! ## Lines -/

/-- What the lines about a class say of it. -/
def DynMemEntry.declared (dm : DynMemEntry) :
    DynMemEssentials × List DynMemEssentials × Option GrowEntry :=
  (dm.toDynMemEssentials, dm.consts, dm.grow)

namespace ConfigState

section Lines

variable {fl : FloatLib} {s s' : ConfigState} {d : Nat} {f : DynMemEntry → DynMemEntry}
  {dm dm' : DynMemEntry} {es : DynMemEssentials} {grow : GrowEntry}

theorem key_of_declared (h : dm'.declared = dm.declared) : dm'.key = dm.key := by
  obtain ⟨hes, hrest⟩ := Prod.mk.inj h
  obtain ⟨-, hgrow⟩ := Prod.mk.inj hrest
  unfold DynMemEntry.key
  rw [hgrow, congrArg DynMemEssentials.lib hes]

theorem parsed_of_declared (h : dm'.declared = dm.declared) (hp : dm.Parsed) : dm'.Parsed := by
  obtain ⟨hes, hrest⟩ := Prod.mk.inj h
  obtain ⟨hconsts, hgrow⟩ := Prod.mk.inj hrest
  refine ⟨fun es hm => hp.essentials es ?_, fun grow hm => hp.grow grow (hgrow ▸ hm)⟩
  unfold DynMemEntry.essentials at hm ⊢
  rwa [← hes, ← hconsts]

/-- The classes are declared as before. -/
theorem Classes.of_declared (h : s.Classes)
    (hdm : s'.opt.dynmems.map (·.declared) = s.opt.dynmems.map (·.declared))
    (hsorted : (s'.opt.entries.filterMap (·.dynmem)).Pairwise (· ≤ ·))
    (hvalid : ∀ d, Refs s'.opt.entries d → d < s.opt.dynmems.length)
    (hopen : ∀ d ∈ s'.inDynmem, d ∈ s.inDynmem) (hlibs : s'.numLibs = s.numLibs) : s'.Classes := by
  have hlen : s'.opt.dynmems.length = s.opt.dynmems.length := by
    simpa using congrArg List.length hdm
  have hkeys : s'.opt.dynmems.map (·.key) = s.opt.dynmems.map (·.key) := by
    refine List.ext_getElem? fun i => ?_
    have hi := congrArg (·[i]?) hdm
    simp only [List.getElem?_map] at hi ⊢
    cases hd : s.opt.dynmems[i]? with
    | none =>
      rw [hd] at hi
      rw [Option.map_eq_none_iff.mp hi]
    | some dm =>
      rw [hd] at hi
      obtain ⟨dm', hd', hdecl⟩ := Option.map_eq_some_iff.mp hi
      rw [hd', Option.map_some, Option.map_some, key_of_declared hdecl]
  refine ⟨hsorted, fun d hd => hlen ▸ hvalid d hd, fun d hd => hlen ▸ h.last d (hopen d hd),
    by rw [hkeys, hlibs]; exact h.keys, fun dm' hm => ?_⟩
  obtain ⟨i, hi⟩ := List.getElem?_of_mem hm
  obtain ⟨dm, hd, hdecl⟩ := Pointwise.getElem?_of_map_eq hdm.symm hi
  exact parsed_of_declared hdecl.symm (h.parsed dm (List.mem_of_getElem? hd))

theorem Classes.of_same (h : s.Classes)
    (hdm : s'.opt.dynmems.map (·.declared) = s.opt.dynmems.map (·.declared))
    (hen : s'.opt.entries.map (·.dynmem) = s.opt.entries.map (·.dynmem))
    (hopen : ∀ d ∈ s'.inDynmem, d ∈ s.inDynmem) (hlibs : s'.numLibs = s.numLibs) : s'.Classes := by
  have hids : ∀ entries : List CfgEntry,
      entries.filterMap (·.dynmem) = (entries.map (·.dynmem)).filterMap id := fun entries => by
    rw [List.filterMap_map]
    rfl
  refine h.of_declared hdm ?_ (fun d hd => h.valid d ?_) hopen hlibs
  · rw [hids, hen, ← hids]
    exact h.sorted
  · unfold Refs at hd ⊢
    rwa [← hen]

/-- A class with a library string of its own. -/
theorem Classes.push (h : s.Classes) (hdm : dm.Parsed) (hkey : dm.key = some s.numLibs) :
    Classes { s.pushClass dm with numLibs := s.numLibs + 1 } := by
  obtain ⟨ks, hks, hnodup, hlt⟩ := h.keys
  have hlen : (s.opt.dynmems ++ [dm]).length = s.opt.dynmems.length + 1 := by simp
  refine ⟨h.sorted, fun d hd => hlen ▸ (h.valid d hd).trans (Nat.lt_succ_self _), fun d hd => ?_,
    ⟨ks ++ [s.numLibs], ?_, ?_, fun k hk => ?_⟩, fun dm' hm => ?_⟩
  · cases hd
    exact hlen.symm
  · show (s.opt.dynmems ++ [dm]).map _ = _
    rw [List.map_append, hks, List.map_append, List.map_singleton, hkey, List.map_singleton]
  · exact List.nodup_append.mpr ⟨hnodup, List.nodup_singleton _, fun a ha b hb =>
      ((hlt a ha).trans_eq (List.mem_singleton.mp hb).symm).ne⟩
  · rcases List.mem_append.mp hk with hk | hk
    · exact (hlt k hk).trans (Nat.lt_succ_self _)
    · exact List.mem_singleton.mp hk ▸ Nat.lt_succ_self _
  · rcases List.mem_append.mp hm with hm | hm
    · exact h.parsed dm' hm
    · exact List.mem_singleton.mp hm ▸ hdm

/-- A line about a class: its library string may be the new one. -/
theorem Classes.modify (h : s.Classes) (hdm : ∀ dm, dm.Parsed → (f dm).Parsed)
    (hkey : (∀ dm, (f dm).key = dm.key) ∨ ∀ dm, (f dm).key = some s.numLibs) :
    (s.modifyClass d f).Classes := by
  obtain ⟨ks, hks, hnodup, hlt⟩ := h.keys
  have hlen : (s.opt.dynmems.modify d f).length = s.opt.dynmems.length := List.length_modify ..
  have hnew : s.numLibs ∉ ks := fun hm => (hlt _ hm).false
  refine ⟨h.sorted, fun d hd => hlen ▸ h.valid d hd, fun d hd => hlen ▸ h.last d hd, ?_,
    fun dm' hm => ?_⟩
  · rcases hkey with hkey | hkey
    · exact ⟨ks, (Pointwise.map_modify_eq hkey _ d).trans hks, hnodup,
        fun k hk => (hlt k hk).trans (Nat.lt_succ_self _)⟩
    · refine ⟨ks.set d s.numLibs, ?_, hnodup.set hnew, fun k hk => ?_⟩
      · rw [List.map_set, ← hks]
        refine List.ext_getElem? fun i => ?_
        show ((s.opt.dynmems.modify d f).map _)[i]? = _
        rw [List.getElem?_map, List.getElem?_modify, List.getElem?_set', List.getElem?_map]
        by_cases hi : d = i
        · cases s.opt.dynmems[i]? <;> simp [hi, hkey]
        · cases s.opt.dynmems[i]? <;> simp [hi]
      · rcases List.mem_or_eq_of_mem_set hk with hk | hk
        · exact (hlt k hk).trans (Nat.lt_succ_self _)
        · exact hk ▸ Nat.lt_succ_self _
  · obtain ⟨i, hi⟩ := List.getElem?_of_mem hm
    obtain ⟨dm, hd, rfl⟩ := Option.map_eq_some_iff.mp (List.getElem?_modify .. ▸ hi)
    have hp := h.parsed dm (List.mem_of_getElem? hd)
    by_cases hdi : d = i
    · simpa [hdi] using hdm dm hp
    · simpa [hdi] using hp

theorem addConst_classes (h : s.Classes) (hes : es.Parsed) : (s.addConst d es).Classes := by
  refine h.modify (fun dm hp => ⟨fun es' hm => ?_, hp.grow⟩) (.inl fun _ => rfl)
  rcases List.mem_append.mp (show es' ∈ dm.essentials ++ [es] from hm) with hm | hm
  · exact hp.essentials es' hm
  · exact List.mem_singleton.mp hm ▸ hes

theorem setGrow_classes (h : s.Classes) (hg : grow.Parsed)
    (hlib : grow.lib.map (·.id) = some s.numLibs) : (s.setGrow d grow).Classes := by
  refine h.modify (fun dm hp => ⟨hp.essentials, fun grow' hm => ?_⟩) (.inr fun _ => hlib)
  cases hm
  exact hg

theorem growStart_classes (h : s.Classes) (name : Str) (hg : grow.Parsed)
    (hlib : grow.lib.map (·.id) = some s.numLibs) :
    ((s.pushClass (.new name ⟨0, 0, 0, 0, none⟩)).setGrow s.opt.dynmems.length grow).Classes := by
  have hdm : ({ DynMemEntry.new name ⟨0, 0, 0, 0, none⟩ with
      vMsize := [], grow := some grow } : DynMemEntry).Parsed := by
    refine ⟨fun es hm => ?_, fun grow' hm => ?_⟩
    · obtain rfl := List.mem_singleton.mp hm
      exact ⟨(by decide : (0 : SizeT).toNat < 2 ^ 32), rfl, fun _ hl => (by cases hl)⟩
    · cases hm
      exact hg
  have heq : (s.opt.dynmems ++ [DynMemEntry.new name ⟨0, 0, 0, 0, none⟩]).modify
      s.opt.dynmems.length (fun dm => { dm with vMsize := [], grow := some grow }) =
      s.opt.dynmems ++ [{ DynMemEntry.new name ⟨0, 0, 0, 0, none⟩ with
        vMsize := [], grow := some grow }] := Pointwise.modify_concat ..
  have := h.push hdm hlib
  unfold setGrow modifyClass pushClass
  dsimp only
  rw [heq]
  exact this

/-! ## Values -/

theorem activate_declared {r : CfgReader} {e : Nat} :
    (r.activate e).opt.dynmems.map (·.declared) = r.opt.dynmems.map (·.declared) := by
  unfold CfgReader.activate
  split
  · rfl
  · dsimp only
    cases r.inDynmem with
    | none => rfl
    | some d =>
      refine Pointwise.map_modify_eq ?_ _ d
      exact fun _ => rfl

/-- A new entry is one of the last class, or of none. -/
theorem readValue_classes {r : CfgReader} {name line : Str} {start : Nat} (h : s.Classes)
    (hr : CfgReader.readValue fl s.toCfgReader name line start = .ok r) :
    Classes { s with toCfgReader := r } := by
  obtain ⟨s₁, en, behind, dynval, g, hentry, -, hr⟩ := CfgReader.readValue_cases hr
  obtain ⟨hsame, hen⟩ := CfgReader.parseEntry_sameLists hentry
  have hdyn := (CfgReader.parseEntry_cases hentry).1
  have hentries : r.opt.entries = s.opt.entries ++ [{ en with dynval := dynval }] := by
    rw [← hen]
    rcases hr with rfl | rfl
    · rfl
    · exact CfgReader.activate_entries
  have hdm : r.opt.dynmems.map (·.declared) = s.opt.dynmems.map (·.declared) := by
    rw [← hsame.dynmems]
    rcases hr with rfl | rfl
    · rfl
    · exact activate_declared
  have hopen : r.inDynmem = s.inDynmem := by
    rw [← hsame.inDynmem]
    rcases hr with rfl | rfl
    · rfl
    · exact CfgReader.activate_inDynmem
  have hlast : ∀ d ∈ s.inDynmem, d < s.opt.dynmems.length ∧ ∀ d', Refs s.opt.entries d' → d' ≤ d := by
    intro d hd
    have hlen := h.last d hd
    exact ⟨by omega, fun d' hd' => by have := h.valid d' hd'; omega⟩
  refine h.of_declared hdm ?_ (fun d hd => ?_) (fun d hd => hopen ▸ hd) rfl
  · show (r.opt.entries.filterMap (·.dynmem)).Pairwise _
    rw [hentries, List.filterMap_append, List.pairwise_append]
    refine ⟨h.sorted, ?_, fun d hd d' hd' => ?_⟩
    · cases en.dynmem <;> simp
    · obtain ⟨en₀, hm, hd₀⟩ := List.mem_filterMap.mp hd
      refine (hlast d' ?_).2 d (List.mem_map.mpr ⟨en₀, hm, hd₀⟩)
      rw [← hdyn]
      obtain ⟨en', hm', hd'⟩ := List.mem_filterMap.mp hd'
      obtain rfl := List.mem_singleton.mp hm'
      exact hd'
  · have hd : some d ∈ r.opt.entries.map (·.dynmem) := hd
    rw [hentries, List.map_append] at hd
    rcases List.mem_append.mp hd with hd | hd
    · exact h.valid d hd
    · exact (hlast d (hdyn ▸ (List.mem_singleton.mp hd).symm)).1

theorem readCheck_classes {r : CfgReader} {objcheck : Bool} {line : Str} {start : Nat} (h : s.Classes)
    (hr : s.toCfgReader.readCheck fl objcheck line start = .ok r) :
    Classes { s with toCfgReader := r } := by
  obtain ⟨s₁, en, a, type, chks, _, _, hlast, hregion, -, rfl⟩ := CfgReader.readCheck_cases hr
  obtain ⟨hsame, hen⟩ := CfgReader.setRegion_sameLists hregion
  refine h.of_same ?_ ?_ (fun d hd => hsame.inDynmem ▸ hd) rfl
  · show s₁.opt.dynmems.map _ = _
    rw [hsame.dynmems]
  · show (s₁.opt.entries.dropLast ++ [_]).map _ = _
    rw [hen, ← List.dropLast_append_getLast? en hlast, List.map_append, List.map_append,
      List.dropLast_concat]
    rfl

/-- **Each line** keeps what the classes have. -/
theorem classes_rule (fl : FloatLib) : StateRule fl Classes where
  init _ _ := ⟨.nil, fun _ hd => (by cases hd), fun _ hd => (by cases hd),
    ⟨[], rfl, .nil, fun _ hk => (by cases hk)⟩, fun _ hd => (by cases hd)⟩
  value _ _ _ _ _ h hr := readValue_classes h hr
  check _ _ _ _ _ h hr := readCheck_classes h hr
  dynmemStart s name _ _ es h _ hes := by
    obtain ⟨hp, hid⟩ := parseEssentials_parsed hes
    refine h.push ⟨fun es' hm => ?_, fun _ hg => (by cases hg)⟩ hid
    obtain rfl := List.mem_singleton.mp hm
    exact hp
  dynmemConst _ _ _ _ _ h hes := addConst_classes h (parseEssentials_parsed hes).1
  dynmemGrow _ _ _ _ _ h hg := setGrow_classes h (parseGrowing_lib hg).1 (parseGrowing_lib hg).2
  growStart _ name _ _ _ h _ hg := growStart_classes h name (parseGrowing_lib hg).1 (parseGrowing_lib hg).2
  ptrmemStart _ _ _ h _ := h.of_same rfl rfl (fun _ hd => hd) rfl
  other s s' h hs hlibs := by
    have hdm := congrArg (·.dynmems) hs.cfg
    have hen := congrArg (·.entries) hs.cfg
    exact h.of_same (congrArg (List.map _) hdm) (congrArg (List.map _) hen) hs.inDynmem hlibs
  caches s chunk h := by
    refine h.of_same rfl ?_ (fun _ hd => hd) rfl
    refine List.ext_getElem? fun i => ?_
    show ((buildCaches chunk s.opt).entries.map _)[i]? = _
    unfold buildCaches
    simp only [List.getElem?_map, List.getElem?_mapIdx, Option.map_map]
    rfl

theorem Classes.wellFormed (h : s.Classes) : s.opt.WellFormed := by
  obtain ⟨ks, hks, hnodup, -⟩ := h.keys
  have hkey : ∀ (d : Nat) (dm : DynMemEntry), s.opt.dynmems[d]? = some dm →
      ∃ k, ks[d]? = some k ∧ dm.key = some k := by
    intro d dm hd
    have hi := congrArg (·[d]?) hks
    simp only [List.getElem?_map, hd, Option.map_some] at hi
    obtain ⟨k, hk, heq⟩ := Option.map_eq_some_iff.mp hi.symm
    exact ⟨k, hk, heq.symm⟩
  refine ⟨h.sorted, h.valid, fun dm hm => ?_, fun d d' dm dm' hd hd' heq => ?_, fun dm hm => ?_⟩
  · obtain ⟨d, hd⟩ := List.getElem?_of_mem hm
    obtain ⟨k, -, hk⟩ := hkey d dm hd
    rw [hk]
    exact Option.some_ne_none k
  · obtain ⟨k, hk, hdm⟩ := hkey d dm hd
    obtain ⟨k', hk', hdm'⟩ := hkey d' dm' hd'
    have hkk : some k = some k' := hdm.symm.trans (heq.trans hdm')
    have hlt := (List.getElem?_eq_some_iff.mp hk).1
    exact (List.getElem?_inj hlt hnodup).mp (hk.trans (hkk.trans hk'.symm))
  · exact ⟨fun es hes => ((h.parsed dm hm).essentials es hes).size,
      fun grow hg => ((h.parsed dm hm).grow grow hg).sizes⟩

variable {chunk n : Nat} {cfgPath : Str} {preloadLib : Option Str} {lines : List Str}

/-- **An accepted config** has what the transfer to libmemhack needs. -/
theorem readConfig_wellFormed
    (h : readConfig fl chunk n cfgPath preloadLib lines = some (.ok s)) : s.opt.WellFormed :=
  (readConfig_state (classes_rule fl) h).wellFormed

/-- The items of the classes are as the text has them. -/
theorem readConfig_parsed (h : readConfig fl chunk n cfgPath preloadLib lines = some (.ok s)) :
    ∀ dm ∈ s.opt.dynmems, dm.Parsed :=
  (readConfig_state (classes_rule fl) h).parsed

end Lines

/-- A class in a library with a constructor of the executable, one with a growth rule, and one more. -/
def threeClasses : List Str :=
  ["game", "dynmemstart Obj 28 0x400 0x8 liba.so", "dynmemconst 64 0x500 0x8", "HP 0x4 i32 5 a a",
    "dynmemend", "dynmemgrow Mob 16 64 +8 0x700 0x8 liba.so", "MP 0x8 i32 5 a a", "dynmemend",
    "dynmemstart Gold 16 0x600 0x8", "dynmemconst 32 0x680 0x8 liba.so", "Sum 0x0 u32 9 a a",
    "dynmemend"].map (·.toList)

end ConfigState

end UgTrain
