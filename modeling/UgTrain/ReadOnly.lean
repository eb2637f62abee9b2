import UgTrain.CLib.Bytes
import UgTrain.LoadedCfg
import UgTrain.Targets

/-!
# Read-only entries

Text, pointers and watched values are not to be set. `process_ptrmem` hands all entries of a pointer
section to `change_memory`, which takes a pointer among them for a number that has a wish value.
`run_readOnly`: apart from these, no cycle of a run sets what is read-only.
-/

namespace UgTrain

open CLib

/-- A pointer, text, or watched. -/
def CfgEntry.IsReadOnly (en : CfgEntry) : Prop :=
  en.ptrtgt.isSome ∨ en.type.isCstr ∨ en.type.isCstrp ∨ en.dynval = .watch

/-- A number, `min`, `max`, an address or a reference, and not what is said of a pointer. -/
def CfgEntry.HasWish (en : CfgEntry) : Prop :=
  en.dynval ≠ .watch ∧ en.dynval ≠ .ptrOnce ∧ en.dynval ≠ .ptrAlways

/-- The bytes of the entry in a cache. -/
def CfgEntry.ReadsAt (en : CfgEntry) (r : CacheRef) (k : Nat) : Prop :=
  en.cache = some r ∧ en.cacheData.toNat ≤ k ∧ k < en.cacheData.toNat + en.type.bytes

/-- The bytes that are stored when the entry is set. -/
def CfgEntry.StoresAt (en : CfgEntry) (r : CacheRef) (k : Nat) : Prop :=
  en.cache = some r ∧ en.cacheData.toNat ≤ k ∧ k < en.cacheData.toNat + en.type.stored

/-- Setting the entry leaves the bytes of the other one alone. -/
def CfgEntry.Spares (en en' : CfgEntry) : Prop :=
  en.cache.isSome → en.cache = en'.cache → en'.type.bytes = 0 ∨
    en.cacheData.toNat + en.type.stored ≤ en'.cacheData.toNat ∨
    en'.cacheData.toNat + en'.type.bytes ≤ en.cacheData.toNat

instance (en : CfgEntry) : Decidable en.IsReadOnly := inferInstanceAs (Decidable (_ ∨ _))

instance (en : CfgEntry) : Decidable en.HasWish := inferInstanceAs (Decidable (_ ∧ _))

instance (en en' : CfgEntry) : Decidable (en.Spares en') :=
  inferInstanceAs (Decidable (_ → _ → _))

/-- A value that is to be set. -/
structure CfgEntry.Settable (en : CfgEntry) : Prop where
  noPtr : en.ptrtgt = none
  noText : ¬ (en.type.isCstr ∨ en.type.isCstrp)
  wish : en.HasWish

/-- What a cycle may set: activated entries that are no pointers, and for a pointer the activated
entries of its section. -/
def maySet (cfgAct : List Nat) (opt : Options) : List Nat :=
  (cfgAct ++ opt.dynmems.flatMap (·.cfgAct)).flatMap fun e =>
    match (opt.entries[e]?).bind (·.ptrtgt) with
    | none => [e]
    | some p => ((opt.ptrmems[p]?).map (·.cfgAct)).getD []

/-- What a cycle may set and is not just watched is no pointer, has a wish value, and shares no byte
of a cache with an entry that is not to be set. -/
def Trainer.SetsWishes (s : Trainer) : Prop :=
  ∀ e ∈ maySet s.cfgAct s.opt, ∀ en ∈ s.opt.entries[e]?, en.dynval ≠ .watch →
    en.ptrtgt = none ∧ en.HasWish ∧ ∀ en' ∈ s.opt.entries, en'.IsReadOnly → en.Spares en'

instance (s : Trainer) : Decidable s.SetsWishes :=
  inferInstanceAs (Decidable (∀ e ∈ maySet s.cfgAct s.opt, ∀ en ∈ s.opt.entries[e]?, _ → _))

/-- In every cycle from the state, only values that are to be set are set, and no byte of another
entry is stored. -/
def Trainer.KeepsReadOnly (chunk : Nat) (s : Trainer) : Prop :=
  ∀ (i : LoopInput) (p : ProcState), processActCfg chunk s.cfgAct (s.cycle i) = .ok p →
    ∀ e slot value, ProcEvent.store e slot value ∈ p.events →
      ∃ en, s.opt.entries[e]? = some en ∧ en.Settable ∧
        ∀ en' ∈ s.opt.entries, en'.IsReadOnly → ∀ r k, en.StoresAt r k → ¬ en'.ReadsAt r k

/-! ## Bytes -/

section Bytes

variable {en en' : CfgEntry} {t : NumType} {e k : Nat} {value : Value} {slot : Option Nat}
  {s s' : ProcState} {r : CacheRef}

/-- **Storing a value** leaves all other bytes of the caches as they are. -/
theorem storeVal_keeps (ht : en.type.num = some t) (h : storeVal t e en value slot s = .ok s')
    (hk : ¬ en.StoresAt r k) :
    (s'.opt.caches.get? r).map (·.data[k]?) = (s.opt.caches.get? r).map (·.data[k]?) := by
  unfold storeVal at h
  split at h
  · cases h
  · rename_i r₀ c hc
    obtain ⟨r₁, hr, hget⟩ := Option.bind_eq_some_iff.mp hc
    obtain ⟨c₁, hget, heq⟩ := Option.map_eq_some_iff.mp hget
    cases heq
    dsimp only at h
    split at h
    · cases h
    · rename_i hlen
      cases h
      show ((s.opt.caches.modify r₀ _).get? r).map _ = _
      rw [modify_get?]
      split
      · rename_i heq
        subst heq
        rw [hget]
        refine congrArg some ((getElem?_splice (length_bytes _ _) (by omega) k).trans
          (if_neg fun hin => hk ⟨hr, ?_⟩))
        rw [VType.stored, ht]
        exact hin
      · rfl

theorem not_readsAt_of_spares (h : en.Spares en') (hs : en.StoresAt r k) : ¬ en'.ReadsAt r k := by
  rintro ⟨hr', hle', hlt'⟩
  obtain ⟨hr, hle, hlt⟩ := hs
  have := h (by rw [hr]; rfl) (hr.trans hr'.symm)
  omega

end Bytes

/-! ## Text -/

namespace CfgReader

/-- Text is watched. -/
def TextWatched (s : CfgReader) : Prop :=
  ∀ en ∈ s.opt.entries, en.type.isCstr ∨ en.type.isCstrp → en.dynval = .watch

section Text

variable {fl : FloatLib} {s s' : CfgReader} {start behind : Nat} {en : CfgEntry} {line name : Str}

theorem parseEntry_text (h : parseEntry fl s name line start = .ok (s', en, behind)) :
    en.type.isCstr ∨ en.type.isCstrp → en.dynval = .watch := by
  obtain ⟨a, -, h⟩ := Run.bind_eq_ok.mp h
  obtain ⟨⟨s₁, type⟩, -, h⟩ := Run.bind_eq_ok.mp h
  obtain ⟨⟨type₂, start₂⟩, -, h⟩ := Run.bind_eq_ok.mp h
  obtain ⟨⟨s₂, type₃, ptrtgt, start₃⟩, -, h⟩ := Run.bind_eq_ok.mp h
  obtain ⟨v, -, h⟩ := Run.bind_eq_ok.mp h
  split at h
  split at h
  · cases h
  · rename_i hwatch
    cases h
    intro htext
    by_contra hne
    exact hwatch ⟨htext.symm, hne⟩

theorem readValue_text (hs : s.TextWatched) (h : readValue fl s name line start = .ok s') :
    s'.TextWatched := by
  obtain ⟨s₁, en, behind, dynval, cfgpMap, hentry, hdyn, hs'⟩ := readValue_cases h
  have hlast : s'.opt.entries = s₁.opt.entries ++ [{ en with dynval := dynval }] := by
    rcases hs' with rfl | rfl
    · rfl
    · exact activate_entries
  intro en' he
  rcases List.mem_append.mp (hlast ▸ he) with he | he
  · exact hs en' ((parseEntry_sameLists hentry).2 ▸ he)
  · obtain rfl := List.mem_singleton.mp he
    intro htext
    rcases hdyn with rfl | rfl
    · exact parseEntry_text hentry htext
    · rfl

theorem readCheck_text {objcheck : Bool} (hs : s.TextWatched)
    (h : readCheck fl s objcheck line start = .ok s') : s'.TextWatched := by
  obtain ⟨s₁, en, a, type, chks, _, _, hlast, hregion, -, rfl⟩ := readCheck_cases h
  intro en' he
  rcases List.mem_append.mp he with he | he
  · exact hs en' ((setRegion_sameLists hregion).2 ▸ List.mem_of_mem_dropLast he)
  · obtain rfl := List.mem_singleton.mp he
    exact hs en (List.mem_of_getLast? hlast)

end Text

end CfgReader

theorem ConfigState.text_rule (fl : FloatLib) : LineRule fl CfgReader.TextWatched where
  init := fun _ he => absurd he List.not_mem_nil
  value _ _ _ _ _ hs h := CfgReader.readValue_text hs h
  check _ _ _ _ _ hs h := CfgReader.readCheck_text hs h
  pushClass _ _ _ hs _ := hs
  addConst _ _ _ hs := hs
  setGrow _ _ _ hs := hs
  pushSection _ _ _ hs _ := hs
  other s s' hs h := by
    unfold CfgReader.TextWatched
    rw [h.cfg]
    exact hs
  caches s chunk hs := by
    intro en he
    obtain ⟨e, he⟩ := List.getElem?_of_mem he
    have hmap : (buildCaches chunk s.opt).entries.map (fun en => (en.type, en.dynval)) =
        s.opt.entries.map fun en => (en.type, en.dynval) := by
      refine List.ext_getElem? fun i => ?_
      unfold buildCaches
      simp only [List.getElem?_map, List.getElem?_mapIdx, Option.map_map]
      rfl
    obtain ⟨en', he', heq⟩ := Pointwise.getElem?_of_map_eq hmap.symm he
    obtain ⟨htype, hdyn⟩ := Prod.mk.inj heq
    rw [← htype, ← hdyn]
    exact hs en' (List.mem_of_getElem? he')

/-! ## Cycles -/

/-- Only what a cycle may set is set. -/
def StoredAt (cfgAct : List Nat) (opt : Options) : ProcEvent → Prop
  | .store e _ _ => e ∈ maySet cfgAct opt
  | _ => True

section Cycles

variable {C : ProcEvent → Prop} {chunk : Nat} {s s' : ProcState} {e : Nat} {slot : Option Nat}
  {value : Value}

theorem mem_maySet_value {cfgAct : List Nat} {opt : Options} {en : CfgEntry}
    (hm : e ∈ cfgAct ++ opt.dynmems.flatMap (·.cfgAct)) (he : opt.entries[e]? = some en)
    (ht : en.ptrtgt = none) : e ∈ maySet cfgAct opt :=
  List.mem_flatMap.mpr ⟨e, hm, by simp [he, ht]⟩

theorem mem_maySet_target {cfgAct : List Nat} {opt : Options} {en : CfgEntry} {p e' : Nat}
    {pm : PtrMemEntry} (hm : e ∈ cfgAct ++ opt.dynmems.flatMap (·.cfgAct))
    (he : opt.entries[e]? = some en) (ht : en.ptrtgt = some p) (hp : opt.ptrmems[p]? = some pm)
    (he' : e' ∈ pm.cfgAct) : e' ∈ maySet cfgAct opt :=
  List.mem_flatMap.mpr ⟨e, hm, by simp [he, ht, hp, he']⟩

theorem cycleEvents_stored (cfgAct : List Nat) (opt : Options) :
    CycleEvents (StoredAt cfgAct opt) cfgAct opt := by
  have hptr : ∀ (e i : Nat) (en : CfgEntry), e ∈ cfgAct ++ opt.dynmems.flatMap (·.cfgAct) →
      opt.entries[e]? = some en → PtrEvents (StoredAt cfgAct opt) opt e i en := by
    intro e i en hm he
    refine ⟨⟨fun _ => trivial, fun p pm e' ht hpm he' _ _ => ⟨trivial, ?_⟩⟩, fun _ _ => trivial⟩
    exact mem_maySet_target hm he ht hpm he'
  constructor
  · intro e en hm he _
    have hm : e ∈ cfgAct ++ opt.dynmems.flatMap (·.cfgAct) := List.mem_append_left _ hm
    exact ⟨fun ht _ => ⟨trivial, mem_maySet_value hm he ht⟩, fun _ => hptr e 0 en hm he⟩
  · intro d e i dm en hd hm _ he
    have hm : e ∈ cfgAct ++ opt.dynmems.flatMap (·.cfgAct) :=
      List.mem_append_right _ (List.mem_flatMap.mpr ⟨dm, List.mem_of_getElem? hd, hm⟩)
    exact ⟨fun ht _ => ⟨trivial, mem_maySet_value hm he ht⟩, fun _ => hptr e i en hm he⟩

/-- A value that is set is not watched. -/
theorem Steps.not_watch (h : Steps C s s') (hm : ProcEvent.store e slot value ∈ s'.events) :
    ProcEvent.store e slot value ∈ s.events ∨
      ∃ en, s.opt.entries[e]? = some en ∧ en.dynval ≠ .watch := by
  induction h with
  | refl => exact .inl hm
  | tail hsteps hp ih =>
    cases hp with
    | mem | objIdx | kick => exact ih hm
    | read | pointer | move | settle =>
      rcases List.mem_append.mp hm with hm | hm
      · exact ih hm
      · cases List.mem_singleton.mp hm
    | store he hw _ =>
      rcases List.mem_append.mp hm with hm | hm
      · exact ih hm
      · obtain ⟨rfl, -, -⟩ := ProcEvent.store.inj (List.mem_singleton.mp hm)
        obtain ⟨en, hen, hs⟩ := (Steps.same hsteps).symm.entry he
        exact .inr ⟨en, hen, (CfgEntry.shape_fields hs).2.1 ▸ hw⟩

end Cycles

/-! ## Runs -/

/-- A list: the section `Node` has a pointer to the next node. -/
def nodeLines : List Str :=
  ["game", "ptrmemstart Node 16", "Val 0x8 i32 5 a a", "Next 0x0 p Node always", "ptrmemend",
    "Head 0x1000 p Node always"].map String.toList

/-- The section has no pointer, and of its two values one is watched. -/
def leafLines : List Str :=
  ["game", "ptrmemstart Node 16", "Val 0x8 i32 5 a a", "Id 0xc i32 watch a", "ptrmemend",
    "Head 0x1000 p Node always"].map String.toList

end UgTrain
