import UgTrain.EntryLines
import UgTrain.Process

/-!
# The width of a data type

The number behind `u` or `i` is not checked: `VType.Fits` says what the processing needs of a type, and
`typeWidth_iff` that an accepted line has such a type exactly if its number is one of the usual ones,
or 0, which is taken for a pointer (`UsualWidth`).
-/

namespace UgTrain

open CLib

/-- What is read of the type, what is compared, and what is written. -/
structure VType.Fits (type : VType) : Prop where
  width : type.size ∈ [8, 16, 32, 64]
  float : type.isFloat → type.size ∈ [32, 64]
  copy : ∀ (data : List UInt8) (cacheData : Ptr) (buf : Value),
    cacheData.toNat + type.bytes ≤ data.length → (copyToBuf type data cacheData buf).isOk
  change : ∃ t, type.num = some t ∧ t.width / 8 = type.bytes
  check : ∃ t, type.checkNum = some t ∧ t.width / 8 = type.bytes

theorem typeFits_iff {type : VType} :
    type.Fits ↔ type.size ∈ [8, 16, 32, 64] ∧ (type.isFloat → type.size ∈ [32, 64]) := by
  refine ⟨fun h => ⟨h.width, h.float⟩, fun ⟨hw, hf⟩ => ⟨hw, hf, ?_, ?_, ?_⟩⟩
  all_goals
    have hbytes := VType.bytes_of_usual hw
    have hw' := hw
    simp only [List.mem_cons, List.not_mem_nil, or_false] at hw'
  · intro data cacheData buf hlen
    unfold copyToBuf
    dsimp only
    rw [if_neg (by omega)]
    rfl
  · unfold VType.num
    split
    · have hf := hf ‹_›
      simp only [List.mem_cons, List.not_mem_nil, or_false] at hf
      rcases hf with h | h <;> rw [hbytes, h]
      · exact ⟨.f32, rfl, rfl⟩
      · exact ⟨.f64, rfl, rfl⟩
    · refine ⟨_, rfl, ?_⟩
      rw [hbytes]
      rcases hw' with h | h | h | h <;> rw [h] <;> rfl
  · unfold VType.checkNum
    split
    · have hf := hf ‹_›
      simp only [List.mem_cons, List.not_mem_nil, or_false] at hf
      rcases hf with h | h <;> rw [hbytes, h]
      · exact ⟨.f32, rfl, rfl⟩
      · exact ⟨.f64, rfl, rfl⟩
    · rw [if_pos (by simp only [List.mem_cons, List.not_mem_nil, or_false]; tauto), hbytes]
      exact ⟨_, rfl, rfl⟩

/-- The number behind `u` or `i`, up to the blank, is a usual width or 0. -/
def UsualWidth (text : Str) : Prop :=
  text.head? = some 'u' ∨ text.head? = some 'i' → ' ' ∈ text →
    atoi (text.tail.takeWhile (· ≠ ' ')) ∈ [0, 8, 16, 32, 64]

/-- Text and pointers have the size of a pointer. -/
def VType.sized (type : VType) : VType :=
  if type.isCstrp ∨ type.isCstr ∨ type.size = 0 then { type with size := 64 } else type

section Parse

variable {line text : Str} {start lidx behind : Nat} {ds : Str} {r : Option Str} {type type₀ : VType}

theorem scanWidth_eq (h : scanWidth lidx ds text = .ok (r, behind)) :
    r = if ' ' ∈ text then some (ds ++ text.takeWhile (· ≠ ' ')) else none := by
  induction text generalizing lidx ds with
  | nil =>
    cases h
    rfl
  | cons c text ih =>
    unfold scanWidth at h
    split at h
    · rename_i hc
      cases h
      simp [hc]
    · rename_i hc
      split at h
      · rw [ih h]
        have hmem : ' ' ∈ c :: text ↔ ' ' ∈ text := by simp [Ne.symm hc]
        have htake : (c :: text).takeWhile (· ≠ ' ') = c :: text.takeWhile (· ≠ ' ') := by
          simp [hc]
        simp only [hmem, htake, List.append_assoc, List.singleton_append]
      · cases h

/-- The number of a width: 32 at the end of the line. -/
theorem parseWidth_eq (h : parseWidth type₀ line start = .ok (type, behind)) :
    type = { type₀ with size := if ' ' ∈ line.drop start then
        (atoi ((line.drop start).takeWhile (· ≠ ' '))).toNat else 32 } ∧
      (type₀.isFloat → type.size ∈ [32, 64]) := by
  obtain ⟨⟨r, lidx⟩, hscan, h⟩ := Run.bind_eq_ok.mp h
  have hr := scanWidth_eq hscan
  rw [List.nil_append] at hr
  split at hr
  · rename_i hblank
    subst hr
    dsimp only at h
    split at h
    · cases h
    · rename_i hfloat
      cases h
      refine ⟨by rw [if_pos hblank], fun hf => ?_⟩
      simp only [List.mem_cons, List.not_mem_nil, or_false]
      tauto
  · rename_i hblank
    subst hr
    cases h
    exact ⟨by rw [if_neg hblank], fun _ => by simp⟩

/-- The type of an integer. -/
theorem sized_fits_int (hf : type.isFloat = false) (hc : type.isCstr = false)
    (hcp : type.isCstrp = false) : type.sized.Fits ↔ type.size ∈ [0, 8, 16, 32, 64] := by
  unfold VType.sized
  rw [typeFits_iff]
  by_cases h0 : type.size = 0
  · simp [h0, hf]
  · simp [h0, hc, hcp, hf]

theorem parseDataType_fits (h : parseDataType line start type₀ = .ok (type, behind))
    (hc : type₀.isCstr = false) (hcp : type₀.isCstrp = false) (hf : type₀.isFloat = false) :
    type.sized.Fits ↔ UsualWidth (line.drop start) := by
  unfold parseDataType at h
  split at h
  · cases h
  · cases htext : line.drop start with
    | nil => simp [htext] at h
    | cons c text =>
      have hdrop : line.drop (start + 1) = text := by
        rw [← List.drop_drop, htext]
        rfl
      -- an integer
      have hint : ∀ sg, c ≠ ' ' → (c = 'u' ∨ c = 'i') →
          parseWidth { type₀ with isSigned := sg, isFloat := false } line (start + 1) =
            .ok (type, behind) → (type.sized.Fits ↔ UsualWidth (c :: text)) := by
        intro sg hblank hint h
        obtain ⟨htype, -⟩ := parseWidth_eq h
        rw [hdrop] at htype
        rw [sized_fits_int (by rw [htype]) (by rw [htype]; exact hc) (by rw [htype]; exact hcp),
          htype]
        have hmem : ' ' ∈ c :: text ↔ ' ' ∈ text := by simp [Ne.symm hblank]
        unfold UsualWidth
        rw [hmem]
        by_cases hb : ' ' ∈ text
        · have hnat : ∀ v : BitVec 32, v.toNat ∈ [0, 8, 16, 32, 64] ↔
              v ∈ ([0, 8, 16, 32, 64] : List (BitVec 32)) := by
            intro v
            simp [← BitVec.toNat_inj]
          simp [hb, hint, hnat]
        · simp [hb]
      have hother : c ≠ 'u' → c ≠ 'i' → UsualWidth (c :: text) := by
        intro hu hi h
        simp [hu, hi] at h
      rw [htext, List.head?_cons] at h
      split at h
      case h_1 heq =>
        obtain rfl := Option.some.inj heq
        exact hint false (by decide) (.inl rfl) h
      case h_2 heq =>
        obtain rfl := Option.some.inj heq
        exact hint true (by decide) (.inr rfl) h
      case h_3 heq =>
        obtain rfl := Option.some.inj heq
        refine iff_of_true ?_ (hother (by decide) (by decide))
        obtain ⟨htype, hfloat⟩ := parseWidth_eq h
        have hfloat := hfloat rfl
        simp only [List.mem_cons, List.not_mem_nil, or_false] at hfloat
        have hne : type.size ≠ 0 := by omega
        have hc' : type.isCstr = false := by rw [htype]; exact hc
        have hcp' : type.isCstrp = false := by rw [htype]; exact hcp
        have hsized : type.sized = type := if_neg (by simp [hc', hcp', hne])
        rw [hsized, typeFits_iff]
        simp only [List.mem_cons, List.not_mem_nil, or_false]
        omega
      case h_4 heq =>
        obtain rfl := Option.some.inj heq
        cases h
        refine iff_of_true ?_ (hother (by decide) (by decide))
        simp [typeFits_iff, VType.sized, hf]
      case h_5 heq =>
        obtain rfl := Option.some.inj heq
        refine iff_of_true ?_ (hother (by decide) (by decide))
        split at h
        · cases h
        · split at h
          · cases h
            simp [typeFits_iff, VType.sized, hf]
          · split at h
            · cases h
              simp [typeFits_iff, VType.sized, hf]
            · cases h
      case h_6 => cases h

/-- The sizes of text. -/
theorem parseDataType_text (h : parseDataType line start type₀ = .ok (type, behind))
    (hc : type₀.isCstr = false) (hcp : type₀.isCstrp = false)
    (ht : type.isCstrp ∨ type.isCstr) : type.size = 0 ∨ type.size = 64 := by
  have hnum : ∀ sg fl, parseWidth { type₀ with isSigned := sg, isFloat := fl } line (start + 1) =
      .ok (type, behind) → False := by
    intro sg fl h
    obtain ⟨htype, -⟩ := parseWidth_eq h
    rw [htype] at ht
    simp [hc, hcp] at ht
  unfold parseDataType at h
  split at h
  · cases h
  · split at h
    · exact (hnum _ _ h).elim
    · exact (hnum _ _ h).elim
    · exact (hnum _ _ h).elim
    · cases h
      exact .inl rfl
    · split at h
      · cases h
      · split at h
        · cases h
          exact .inl rfl
        · split at h
          · cases h
            exact .inr rfl
          · cases h
    · cases h

/-- What a check does with a pointer is the same. -/
theorem parseDataType_sized (h : parseDataType line start type₀ = .ok (type, behind))
    (hc : type₀.isCstr = false) (hcp : type₀.isCstrp = false) :
    (if type.size = 0 then { type with size := 64 } else type) = type.sized := by
  have htext := parseDataType_text h hc hcp
  unfold VType.sized
  split
  · rename_i h0
    rw [if_pos (.inr (.inr h0))]
  · rename_i h0
    split
    · rename_i ht
      have hsize : type.size = 64 := by tauto
      exact congrArg (fun n => { type with size := n }) hsize
    · rfl

end Parse

/-! ## Lines -/

namespace CfgReader

section Lines

variable {fl : FloatLib} {s s' : CfgReader} {name line : Str} {start behind n i : Nat} {en : CfgEntry}
  {a : LineAddr} {type type' : VType} {objcheck : Bool}

theorem setRegion_zero (h : s.setRegion a = .ok (s', type)) :
    type.isCstr = false ∧ type.isCstrp = false ∧ type.isFloat = false := by
  unfold setRegion at h
  split at h
  · split at h
    · cases h
    · cases h
      exact ⟨rfl, rfl, rfl⟩
  · split at h
    · cases h
      exact ⟨rfl, rfl, rfl⟩
    · split at h
      · cases h
      · cases h
        exact ⟨rfl, rfl, rfl⟩

theorem setTarget_sized {ptrtgt : Option Nat}
    (h : s.setTarget type line start = .ok (s', type', ptrtgt, behind)) : type' = type.sized := by
  unfold setTarget at h
  unfold VType.sized
  split at h
  · rename_i hc
    cases h
    rw [if_pos (hc.imp_right .inl)]
  · rename_i hc
    split at h
    · rename_i hne
      cases h
      rw [if_neg (by tauto)]
    · rename_i h0
      obtain ⟨⟨name, behind'⟩, -, h⟩ := Run.bind_eq_ok.mp h
      split at h
      split at h
      · cases h
      · cases h
        rw [if_pos (.inr (.inr (not_not.mp h0)))]

theorem parseEntry_fits (h : parseEntry fl s name line start = .ok (s', en, behind)) :
    ∃ a, parseAddress s.opt .value line start = .ok a ∧
      (en.type.Fits ↔ UsualWidth (line.drop a.start)) := by
  obtain ⟨a, ha, h⟩ := Run.bind_eq_ok.mp h
  obtain ⟨⟨s₁, type⟩, hregion, h⟩ := Run.bind_eq_ok.mp h
  obtain ⟨⟨type₂, start₂⟩, htype, h⟩ := Run.bind_eq_ok.mp h
  obtain ⟨⟨s₂, type₃, ptrtgt, start₃⟩, htarget, h⟩ := Run.bind_eq_ok.mp h
  obtain ⟨v, -, h⟩ := Run.bind_eq_ok.mp h
  obtain ⟨hc, hcp, hf⟩ := setRegion_zero hregion
  have hen : en.type = type₃ := by
    split at h
    split at h
    · cases h
    · rw [← congrArg (fun r => r.2.1.type) (Except.ok.inj h)]
  refine ⟨a, ha, ?_⟩
  rw [hen, setTarget_sized htarget]
  exact parseDataType_fits htype hc hcp hf

theorem readValue_fits (h : readValue fl s name line start = .ok s') :
    ∃ a en, parseAddress s.opt .value line start = .ok a ∧
      s'.opt.entries = s.opt.entries ++ [en] ∧
      (en.type.Fits ↔ UsualWidth (line.drop a.start)) := by
  obtain ⟨s₁, en, behind, dynval, g, hentry, -, hs'⟩ := readValue_cases h
  obtain ⟨a, ha, hfits⟩ := parseEntry_fits hentry
  obtain ⟨-, hen⟩ := parseEntry_sameLists hentry
  refine ⟨a, { en with dynval := dynval }, ha, ?_, hfits⟩
  rw [← hen]
  rcases hs' with rfl | rfl
  · rfl
  · exact activate_entries

theorem heapCheck_ne_nil (chk : CheckEntry) : heapCheck chk ≠ [] := by
  unfold heapCheck
  split <;> exact List.cons_ne_nil _ _

/-- The values of a check do not change its type. -/
theorem readCheck_fits (h : s.readCheck fl objcheck line start = .ok s') :
    ∃ b a en new, s.parseCheckAddr line start = .ok (b, a) ∧ s.opt.entries.getLast? = some en ∧
      s'.opt.entries = s.opt.entries.dropLast ++
        [{ en with checks := some (en.checks.getD [] ++ new) }] ∧
      new ≠ [] ∧ ∀ chk ∈ new, (chk.type.Fits ↔ UsualWidth (line.drop a.start)) := by
  unfold readCheck at h
  split at h
  · cases h
  · split at h
    · cases h
    · rename_i en hlast
      obtain ⟨⟨b, a⟩, ha, h⟩ := Run.bind_eq_ok.mp h
      obtain ⟨⟨s₁, type⟩, hregion, h⟩ := Run.bind_eq_ok.mp h
      obtain ⟨⟨type₂, start₂⟩, htype, h⟩ := Run.bind_eq_ok.mp h
      obtain ⟨vals, -, h⟩ := Run.bind_eq_ok.mp h
      obtain ⟨hc, hcp, hf⟩ := setRegion_zero hregion
      obtain ⟨-, hen⟩ := setRegion_sameLists hregion
      have hfits := parseDataType_fits htype hc hcp hf
      dsimp only at h
      split at h
      · cases h
      · cases h
        rw [parseDataType_sized htype hc hcp]
        refine ⟨b, a, en, _, ha, hlast, by rw [hen], heapCheck_ne_nil _, fun chk hchk => ?_⟩
        rw [heapCheck_type hchk]
        exact hfits

/-- **The types of accepted lines** fit exactly if the number of an integer is a usual one. -/
theorem typeWidth_iff (fl : FloatLib) (s s' : CfgReader) (name line : Str) (start : Nat) :
    (readValue fl s name line start = .ok s' →
      ∃ a en, parseAddress s.opt .value line start = .ok a ∧
        s'.opt.entries = s.opt.entries ++ [en] ∧
        (en.type.Fits ↔ UsualWidth (line.drop a.start))) ∧
    ∀ objcheck, s.readCheck fl objcheck line start = .ok s' →
      ∃ b a en new, s.parseCheckAddr line start = .ok (b, a) ∧ s.opt.entries.getLast? = some en ∧
        s'.opt.entries = s.opt.entries.dropLast ++
          [{ en with checks := some (en.checks.getD [] ++ new) }] ∧
        new ≠ [] ∧ ∀ chk ∈ new, (chk.type.Fits ↔ UsualWidth (line.drop a.start)) :=
  ⟨readValue_fits, fun _ => readCheck_fits⟩

end Lines

theorem typeWidth_example : ∃ s s', readValue noFloats init "Gold".toList boundLine 5 = .ok s ∧
    s.readCheck noFloats false "check 0x20 u16 l 5".toList 6 = .ok s' ∧
    (∃ en, s.opt.entries = init.opt.entries ++ [en] ∧ en.type.Fits) ∧
    ∃ en new, s.opt.entries.getLast? = some en ∧ s'.opt.entries = s.opt.entries.dropLast ++
      [{ en with checks := some (en.checks.getD [] ++ new) }] := by
  obtain ⟨s, hs⟩ := Run.exists_ok_of_isOk
    (x := readValue noFloats init "Gold".toList boundLine 5) (by decide +kernel)
  obtain ⟨s', hs'⟩ : ∃ s', s.readCheck noFloats false "check 0x20 u16 l 5".toList 6 = .ok s' := by
    obtain ⟨s', hs'⟩ := Run.exists_ok_of_isOk
      (x := (readValue noFloats init "Gold".toList boundLine 5).bind fun s =>
        s.readCheck noFloats false "check 0x20 u16 l 5".toList 6) (by decide +kernel)
    rw [hs] at hs'
    exact ⟨s', hs'⟩
  obtain ⟨a, en, ha, hen, hfits⟩ := (typeWidth_iff noFloats init s _ _ _).1 hs
  have haddr : parseAddress init.opt .value boundLine 5 = .ok ⟨0x10, 10, false, none, none⟩ := by
    decide +kernel
  rw [haddr] at ha
  cases ha
  obtain ⟨-, -, en', new, -, hlast, hs'', -⟩ := (typeWidth_iff noFloats s s' [] _ _).2 false hs'
  exact ⟨s, s', hs, hs', ⟨en, hen, hfits.mpr fun _ _ => by decide +kernel⟩, en', new, hlast, hs''⟩

/-- An integer of 128 bits. -/
def wideLine : Str := "Gold 0x10 u128 99 a a".toList

theorem typeWidth_not : ¬ ∀ (fl : FloatLib) (s s' : CfgReader) (name line : Str) (start : Nat),
    readValue fl s name line start = .ok s' → ∀ en, s'.opt.entries = s.opt.entries ++ [en] →
      en.type.Fits := by
  intro hall
  obtain ⟨s, hs, heq⟩ := Run.exists_ok_of_map
    (x := readValue noFloats init "Gold".toList wideLine 5)
    (f := fun s => s.opt.entries.map (·.type.size)) (b := [128]) (by decide +kernel)
  obtain ⟨a, en, -, hen, -⟩ := readValue_fits hs
  have hfits := hall noFloats init s _ _ _ hs en hen
  have hsize : en.type.size = 128 := by
    rw [hen] at heq
    simpa [init] using heq
  have := hfits.width
  rw [hsize] at this
  exact absurd this (by decide)

end CfgReader

end UgTrain
