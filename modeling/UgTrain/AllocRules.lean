import UgTrain.Attribution
import UgTrain.HackMsg
import UgTrain.ConfigLines

/-!
# Which allocations are reported

An entry of libmemhack has a rule for its constructor and may have one for its growth.
`postprocess_malloc` chooses between the two by the size alone: the growth rule of an entry is not tried
for an allocation of the entry's own size. `reported_iff`: apart from such allocations, exactly those
that a rule matches are reported.

* `HackCfg.Constructs` and `HackCfg.Grows` are the two rules.
* `HackGrow.Parsed` is what `parse_growing` makes certain of (`parseGrowing_parsed`).
-/

namespace UgTrain

open CLib

/-- The sizes are numbers of 32 bits, and there is a step: the code divides by it. -/
structure HackGrow.Parsed (grow : HackGrow) : Prop where
  sizeMin : grow.sizeMin.toNat < 2 ^ 32
  sizeMax : grow.sizeMax.toNat < 2 ^ 32
  add : 0 < grow.add.toNat

/-! ## Rules -/

/-- The address stands at its offset of the stack. -/
def Caller.At (c : Caller) (codeAddr stackOffs : Ptr) : Prop :=
  c.ffp + stackOffs ≤ c.stackEnd - 8 ∧ c.stack (c.ffp + stackOffs) = codeAddr

/-- What the bounds of a growth rule are counted in. -/
def HackGrow.unit (grow : HackGrow) : Nat :=
  match grow.type with
  | .mul => grow.add.toNat
  | .add => 1

/-- The size is in the range of the growth rule, and a multiple of its step. -/
def HackGrow.Fits (grow : HackGrow) (size : SizeT) : Prop :=
  grow.sizeMin.toNat * grow.unit ≤ size.toNat ∧ size.toNat ≤ grow.sizeMax.toNat * grow.unit ∧
    grow.add.toNat ∣ size.toNat

/-- The allocation is one of the constructor of the entry. -/
def HackCfg.Constructs (c : Caller) (size : SizeT) (cfg : HackCfg) : Prop :=
  size = cfg.memSize ∧ c.At cfg.codeAddr cfg.stackOffs

/-- The allocation is one of the growth code of the entry. -/
def HackCfg.Grows (c : Caller) (size : SizeT) (cfg : HackCfg) : Prop :=
  ∃ grow ∈ cfg.grow, grow.Fits size ∧ c.At grow.codeAddr grow.stackOffs

/-- The messages of `postprocess_malloc`. -/
def mallocMsgs (c : Caller) (memAddr : Ptr) (size : SizeT) (config : List HackCfg) : List HackMsg :=
  (postprocessMalloc c size config).toList.map fun (_, codeAddr) => .malloc memAddr size codeAddr

/-- There is one message if a rule of an entry matches, and none otherwise. -/
def Reported (c : Caller) (memAddr : Ptr) (size : SizeT) (config : List HackCfg) : Prop :=
  ((∃ cfg ∈ config, cfg.Constructs c size ∨ cfg.Grows c size) →
    ∃ codeAddr, mallocMsgs c memAddr size config = [.malloc memAddr size codeAddr]) ∧
  (¬ (∃ cfg ∈ config, cfg.Constructs c size ∨ cfg.Grows c size) →
    mallocMsgs c memAddr size config = [])

section Parsed

variable {fl : FloatLib} {line : Str} {start id behind : Nat} {sizeMin sizeMax add : U32}
  {type : GrowType} {grow : GrowEntry}

theorem parseStep_pos (h : parseStep fl sizeMin sizeMax line start = .ok (type, add, behind)) :
    0 < add.toNat := by
  have hpos : ¬ add ≤ 0 → 0 < add.toNat := by
    intro hadd
    rw [BitVec.le_def] at hadd
    exact Nat.lt_of_not_le hadd
  unfold parseStep at h
  split at h
  · obtain ⟨⟨add', behind'⟩, -, h⟩ := Run.bind_eq_ok.mp h
    dsimp only at h
    split at h
    · cases h
    · rename_i hadd
      cases h
      refine hpos fun hle => hadd (.inl ?_)
      exact BitVec.le_zero_iff.mp hle
  · obtain ⟨⟨add', behind'⟩, -, h⟩ := Run.bind_eq_ok.mp h
    dsimp only at h
    split at h
    · cases h
    · rename_i hadd
      cases h
      exact hpos fun hle => hadd (.inr (.inl hle))
  · cases h

/-- An accepted growth rule. -/
theorem parseGrowing_parsed (h : parseGrowing fl id line start = .ok grow) :
    grow.hackGrow.Parsed := by
  unfold parseGrowing at h
  obtain ⟨⟨sizeMin, maxStart⟩, -, h⟩ := Run.bind_eq_ok.mp h
  dsimp only at h
  split at h
  · cases h
  obtain ⟨⟨sizeMax, opStart⟩, -, h⟩ := Run.bind_eq_ok.mp h
  dsimp only at h
  split at h
  · cases h
  split at h
  · cases h
  obtain ⟨⟨type, add, behind⟩, hstep, h⟩ := Run.bind_eq_ok.mp h
  obtain ⟨⟨codeAddr, behind⟩, -, h⟩ := Run.bind_eq_ok.mp h
  obtain ⟨⟨stackOffs, behind⟩, -, h⟩ := Run.bind_eq_ok.mp h
  cases h
  have hwidth : ∀ size : U32, (size.setWidth 64).toNat < 2 ^ 32 := by
    intro size
    rw [BitVec.toNat_setWidth]
    exact lt_of_le_of_lt (Nat.mod_le _ _) size.isLt
  exact ⟨hwidth sizeMin, hwidth sizeMax, parseStep_pos hstep⟩

end Parsed

section Reported

variable {c : Caller} {size : SizeT} {memAddr : Ptr} {cfg : HackCfg} {config : List HackCfg}
  {grow : HackGrow} {codeAddr stackOffs : Ptr}

theorem comesFrom_iff (h : c.useGbt = false) :
    c.comesFrom codeAddr stackOffs = true ↔ c.At codeAddr stackOffs := by
  unfold Caller.comesFrom Caller.At
  simp [h, BitVec.not_lt]

/-- The bounds of a growth rule that multiplies do not wrap. -/
theorem toNat_mul_step {bound : SizeT} (hb : bound.toNat < 2 ^ 32) :
    (bound * grow.add.setWidth 64).toNat = bound.toNat * grow.add.toNat := by
  have hadd := grow.add.isLt
  have hmul : bound.toNat * grow.add.toNat < 2 ^ 32 * 2 ^ 32 :=
    Nat.mul_lt_mul'' hb hadd
  rw [BitVec.toNat_mul, BitVec.toNat_setWidth, Nat.mod_eq_of_lt (a := grow.add.toNat) (by omega),
    Nat.mod_eq_of_lt (by omega)]

theorem fits_step_iff : size % grow.add.setWidth 64 = 0 ↔ grow.add.toNat ∣ size.toNat := by
  have hadd := grow.add.isLt
  rw [← BitVec.toNat_inj, BitVec.toNat_umod, BitVec.toNat_setWidth,
    Nat.mod_eq_of_lt (a := grow.add.toNat) (by omega), Nat.dvd_iff_mod_eq_zero]
  rfl

theorem fits_mul (h : grow.Parsed) (ht : grow.type = .mul) :
    (size > grow.sizeMax * grow.add.setWidth 64 ∨ size < grow.sizeMin * grow.add.setWidth 64 ∨
      size % grow.add.setWidth 64 ≠ 0) ↔ ¬ grow.Fits size := by
  unfold HackGrow.Fits HackGrow.unit
  rw [ht, gt_iff_lt, BitVec.lt_def, BitVec.lt_def, toNat_mul_step h.sizeMax, toNat_mul_step h.sizeMin,
    ne_eq, fits_step_iff]
  dsimp only
  rw [not_and_or, not_and_or, Nat.not_le, Nat.not_le]
  tauto

theorem fits_add (ht : grow.type = .add) :
    (size > grow.sizeMax ∨ size < grow.sizeMin ∨ size % grow.add.setWidth 64 ≠ 0) ↔
      ¬ grow.Fits size := by
  unfold HackGrow.Fits HackGrow.unit
  rw [ht, gt_iff_lt, BitVec.lt_def, BitVec.lt_def, ne_eq, fits_step_iff]
  dsimp only
  rw [Nat.mul_one, Nat.mul_one, not_and_or, not_and_or, Nat.not_le, Nat.not_le]
  tauto

/-- The rule that is chosen by the size. -/
theorem selects_iff (hp : ∀ grow ∈ cfg.grow, grow.Parsed) :
    cfg.selects size = some (codeAddr, stackOffs) ↔
      size = cfg.memSize ∧ (cfg.codeAddr, cfg.stackOffs) = (codeAddr, stackOffs) ∨
      size ≠ cfg.memSize ∧ ∃ grow ∈ cfg.grow, grow.Fits size ∧
        (grow.codeAddr, grow.stackOffs) = (codeAddr, stackOffs) := by
  unfold HackCfg.selects
  by_cases hsize : size = cfg.memSize
  · simp [hsize]
  · rw [if_neg hsize]
    cases hg : cfg.grow with
    | none => simp [hsize]
    | some grow =>
      have hparsed := hp grow hg
      dsimp only
      cases ht : grow.type with
      | mul =>
        dsimp only
        by_cases hfits : grow.Fits size
        · rw [if_neg fun h => (fits_mul hparsed ht).mp h hfits]
          simp [hsize, hfits]
        · rw [if_pos ((fits_mul hparsed ht).mpr hfits)]
          simp [hsize, hfits]
      | add =>
        dsimp only
        by_cases hfits : grow.Fits size
        · rw [if_neg fun h => (fits_add ht).mp h hfits]
          simp [hsize, hfits]
        · rw [if_pos ((fits_add ht).mpr hfits)]
          simp [hsize, hfits]

/-- An entry reports an allocation by its constructor, or by its growth code if the size is not its
own. -/
theorem selects_comesFrom_iff (hgbt : c.useGbt = false) (hp : ∀ grow ∈ cfg.grow, grow.Parsed) :
    (∃ codeAddr stackOffs, cfg.selects size = some (codeAddr, stackOffs) ∧
      c.comesFrom codeAddr stackOffs = true) ↔
      cfg.Constructs c size ∨ size ≠ cfg.memSize ∧ cfg.Grows c size := by
  constructor
  · rintro ⟨codeAddr, stackOffs, hsel, hfrom⟩
    rw [comesFrom_iff hgbt] at hfrom
    rcases (selects_iff hp).mp hsel with ⟨hsize, heq⟩ | ⟨hsize, grow, hg, hfits, heq⟩
    · cases heq
      exact .inl ⟨hsize, hfrom⟩
    · cases heq
      exact .inr ⟨hsize, grow, hg, hfits, hfrom⟩
  · rintro (⟨hsize, hat⟩ | ⟨hsize, grow, hg, hfits, hat⟩)
    · exact ⟨_, _, (selects_iff hp).mpr (.inl ⟨hsize, rfl⟩), (comesFrom_iff hgbt).mpr hat⟩
    · exact ⟨_, _, (selects_iff hp).mpr (.inr ⟨hsize, grow, hg, hfits, rfl⟩),
        (comesFrom_iff hgbt).mpr hat⟩

/-- The loop goes on to the first entry that reports the allocation. -/
theorem postprocessMalloc_isSome_iff : (postprocessMalloc c size config).isSome ↔
    ∃ cfg ∈ config, ∃ codeAddr stackOffs, cfg.selects size = some (codeAddr, stackOffs) ∧
      c.comesFrom codeAddr stackOffs = true := by
  induction config with
  | nil => simp [postprocessMalloc]
  | cons cfg config ih =>
    rw [postprocessMalloc]
    cases hsel : cfg.selects size with
    | none => simp [hsel, ih]
    | some sel =>
      obtain ⟨codeAddr, stackOffs⟩ := sel
      by_cases hfrom : c.comesFrom codeAddr stackOffs = true
      · simp [hsel, hfrom]
      · simp [hsel, hfrom, ih]

/-- There is a message exactly if the loop finds an entry. -/
theorem reported_eq : Reported c memAddr size config ↔
    ((postprocessMalloc c size config).isSome ↔
      ∃ cfg ∈ config, cfg.Constructs c size ∨ cfg.Grows c size) := by
  unfold Reported mallocMsgs
  generalize (∃ cfg ∈ config, cfg.Constructs c size ∨ cfg.Grows c size) = matched
  cases hpost : postprocessMalloc c size config with
  | none => simp
  | some r =>
    obtain ⟨i, codeAddr⟩ := r
    simp

end Reported

/-- **An allocation is reported exactly if a rule matches**, apart from growth to the own size of the
entries. -/
theorem reported_iff (c : Caller) (memAddr : Ptr) (size : SizeT) (config : List HackCfg)
    (hgbt : c.useGbt = false) (hparsed : ∀ cfg ∈ config, ∀ grow ∈ cfg.grow, grow.Parsed) :
    Reported c memAddr size config ↔
      ∀ cfg ∈ config, size = cfg.memSize → cfg.Grows c size →
        ∃ cfg' ∈ config, cfg'.Constructs c size ∨ size ≠ cfg'.memSize ∧ cfg'.Grows c size := by
  have hfound : (postprocessMalloc c size config).isSome ↔
      ∃ cfg ∈ config, cfg.Constructs c size ∨ size ≠ cfg.memSize ∧ cfg.Grows c size := by
    rw [postprocessMalloc_isSome_iff]
    refine exists_congr fun cfg => and_congr_right fun hcfg => ?_
    exact selects_comesFrom_iff hgbt (hparsed cfg hcfg)
  rw [reported_eq, hfound]
  constructor
  · intro h cfg hcfg _ hgrows
    exact h.mpr ⟨cfg, hcfg, .inr hgrows⟩
  · intro h
    constructor
    · rintro ⟨cfg, hcfg, hcons | ⟨-, hgrows⟩⟩
      · exact ⟨cfg, hcfg, .inl hcons⟩
      · exact ⟨cfg, hcfg, .inr hgrows⟩
    · rintro ⟨cfg, hcfg, hcons | hgrows⟩
      · exact ⟨cfg, hcfg, .inl hcons⟩
      · by_cases hsize : size = cfg.memSize
        · exact h cfg hcfg hsize hgrows
        · exact ⟨cfg, hcfg, .inr ⟨hsize, hgrows⟩⟩

/-- An object of 64 bytes that grows by 32 bytes. -/
def HackCfg.growing : HackCfg :=
  ⟨64, 0x500, 0x500, 16, none, some ⟨32, 128, .add, 32, 0x700, 0x700, 8, none⟩⟩

theorem HackCfg.growing_parsed : ∀ cfg ∈ [HackCfg.growing], ∀ grow ∈ cfg.grow, grow.Parsed := by
  intro cfg hcfg grow hg
  obtain rfl := List.mem_singleton.mp hcfg
  obtain rfl := Option.some.inj hg
  exact ⟨by decide, by decide, by decide⟩

/-- A stack that holds a code address at the offset 8. -/
def Caller.atEight (codeAddr : Ptr) : Caller :=
  ⟨0x7000, 0x8000, fun a => if a = 0x7008 then codeAddr else 0, false, []⟩

theorem growing_grows {size : SizeT} (h : size.toNat = 64 ∨ size.toNat = 96) :
    HackCfg.growing.Grows (.atEight 0x700) size := by
  refine ⟨_, rfl, ?_, by decide, by decide⟩
  show 32 * 1 ≤ size.toNat ∧ size.toNat ≤ 128 * 1 ∧ 32 ∣ size.toNat
  omega

theorem reported_example : Reported (.atEight 0x700) 0x20 96 [HackCfg.growing] :=
  (reported_iff (.atEight 0x700) 0x20 96 [HackCfg.growing] rfl HackCfg.growing_parsed).mpr
    fun cfg hcfg hsize => by
      obtain rfl := List.mem_singleton.mp hcfg
      exact absurd hsize (by decide)

/-- The object grows to its own size. -/
theorem not_reported : ¬ ∀ (c : Caller) (memAddr : Ptr) (size : SizeT) (config : List HackCfg),
    c.useGbt = false → (∀ cfg ∈ config, ∀ grow ∈ cfg.grow, grow.Parsed) →
    Reported c memAddr size config := by
  intro hall
  have h := hall (.atEight 0x700) 0x20 64 [HackCfg.growing] rfl HackCfg.growing_parsed
  obtain ⟨codeAddr, hmsgs⟩ := h.1 ⟨_, by simp, .inr (growing_grows (.inl rfl))⟩
  have hnone : mallocMsgs (.atEight 0x700) 0x20 64 [HackCfg.growing] = [] := by decide
  rw [hnone] at hmsgs
  cases hmsgs

end UgTrain
