import UgTrain.Regions

/-!
# The region of a code address (`discovery.cpp`)

`code_addr_to_region` goes through the regions in ascending order and takes the first one that does
not end in front of the address. The address behind the last byte of a region passes this test.
`codeAddrToRegion_iff`: an address is attributed to the region that contains it exactly if no region
ends at it, or the region in front makes no difference.

* `codeAddrToRegion_eq` is the loop: the region that `Reaches` the address first.
-/

namespace UgTrain

/-- `struct region` with the address where its file is loaded. -/
structure CodeRegion extends Region where
  loadAddr : Ptr
  deriving DecidableEq, Repr, Inhabited

/-- The arguments that `code_addr_to_region` sets. -/
structure CodeAddr where
  codeAddr : Ptr
  binPath : Str
  binName : Str
  deriving DecidableEq, Repr, Inhabited

/-- What is subtracted from an address in the region. -/
def CodeRegion.offs (it : CodeRegion) (exeOffs : Ptr) : Ptr :=
  if it.type = .exe then exeOffs else it.loadAddr

/-- The arguments for an address in the region. -/
def CodeRegion.attribute (it : CodeRegion) (exeOffs : Ptr) (c : CodeAddr) : CodeAddr where
  codeAddr := c.codeAddr - it.offs exeOffs
  binPath := it.filePath
  binName := basename it.filePath

/-- `code_addr_to_region`: whether it returns 0, and the arguments afterwards. -/
def codeAddrToRegion (exeOffs : Ptr) (c : CodeAddr) : List CodeRegion → Bool × CodeAddr
  | [] => (false, c)
  | it :: rlist =>
    if ¬ it.exec ∨ it.start + it.size < c.codeAddr ∨ it.filePath.head? ≠ some '/' then
      codeAddrToRegion exeOffs c rlist
    else if c.codeAddr < it.start then (false, c)
    else (true, it.attribute exeOffs c)

/-- A list of regions. The end of a region is an address. -/
structure RegionList where
  regions : List CodeRegion
  ends : ∀ it ∈ regions, it.start.toNat + it.size.toNat < 2 ^ 64
  ascending : regions.Pairwise fun it next => it.start.toNat + it.size.toNat ≤ next.start.toNat

namespace CodeRegion

/-- An executable region of a file with an absolute path. -/
def Usable (it : CodeRegion) : Prop := it.exec = true ∧ it.filePath.head? = some '/'

instance (it : CodeRegion) : Decidable it.Usable := inferInstanceAs (Decidable (_ ∧ _))

def Contains (it : CodeRegion) (addr : Ptr) : Prop :=
  it.start.toNat ≤ addr.toNat ∧ addr.toNat < it.start.toNat + it.size.toNat

instance (it : CodeRegion) (addr : Ptr) : Decidable (it.Contains addr) :=
  inferInstanceAs (Decidable (_ ∧ _))

/-- The region does not end in front of the address. -/
def Reaches (it : CodeRegion) (addr : Ptr) : Prop :=
  it.Usable ∧ addr.toNat ≤ it.start.toNat + it.size.toNat

instance (it : CodeRegion) (addr : Ptr) : Decidable (it.Reaches addr) :=
  inferInstanceAs (Decidable (_ ∧ _))

/-- The region ends at the address. -/
def EndsAt (it : CodeRegion) (addr : Ptr) : Prop :=
  it.Usable ∧ addr.toNat = it.start.toNat + it.size.toNat

instance (it : CodeRegion) (addr : Ptr) : Decidable (it.EndsAt addr) :=
  inferInstanceAs (Decidable (_ ∧ _))

end CodeRegion

/-- An address is attributed to the executable region of a file that contains it, if there is one. -/
def Attributed (l : RegionList) (exeOffs : Ptr) (c : CodeAddr) (r : Bool × CodeAddr) : Prop :=
  (∃ it ∈ l.regions, it.Usable ∧ it.Contains c.codeAddr ∧ r = (true, it.attribute exeOffs c)) ∨
    (∀ it ∈ l.regions, it.Usable → ¬ it.Contains c.codeAddr) ∧ r = (false, c)

/-- The region that ends at the address is of the same file as the one that contains it. -/
def SameFile (l : RegionList) (exeOffs addr : Ptr) (it : CodeRegion) : Prop :=
  ∃ next ∈ l.regions, next.Usable ∧ next.Contains addr ∧ next.filePath = it.filePath ∧
    next.offs exeOffs = it.offs exeOffs

section Search

variable {exeOffs : Ptr} {c : CodeAddr} {rlist : List CodeRegion} {it : CodeRegion} {l : RegionList}

/-- **The loop** takes the first region that reaches the address. -/
theorem codeAddrToRegion_eq (hends : ∀ it ∈ rlist, it.start.toNat + it.size.toNat < 2 ^ 64) :
    codeAddrToRegion exeOffs c rlist =
      match rlist.find? fun it => decide (it.Reaches c.codeAddr) with
      | none => (false, c)
      | some it => if c.codeAddr < it.start then (false, c) else (true, it.attribute exeOffs c) := by
  induction rlist with
  | nil => rfl
  | cons it rlist ih =>
    have hend := hends it List.mem_cons_self
    have hskip : (¬ it.exec ∨ it.start + it.size < c.codeAddr ∨ it.filePath.head? ≠ some '/') ↔
        ¬ it.Reaches c.codeAddr := by
      have hsum : (it.start + it.size).toNat = it.start.toNat + it.size.toNat := by
        rw [BitVec.toNat_add]
        exact Nat.mod_eq_of_lt hend
      rw [BitVec.lt_def, hsum, CodeRegion.Reaches, CodeRegion.Usable, ← not_le]
      tauto
    rw [codeAddrToRegion, List.find?_cons]
    by_cases h : it.Reaches c.codeAddr
    · rw [if_neg (mt hskip.mp (not_not.mpr h)), decide_eq_true h]
    · rw [if_pos (hskip.mpr h), decide_eq_false h]
      exact ih fun it hit => hends it (List.mem_cons_of_mem _ hit)

theorem attribute_eq_iff {next : CodeRegion} : it.attribute exeOffs c = next.attribute exeOffs c ↔
    next.filePath = it.filePath ∧ next.offs exeOffs = it.offs exeOffs := by
  simp only [CodeRegion.attribute, CodeAddr.mk.injEq, sub_right_inj]
  constructor
  · rintro ⟨hoffs, hpath, -⟩
    exact ⟨hpath.symm, hoffs.symm⟩
  · rintro ⟨hpath, hoffs⟩
    exact ⟨hoffs.symm, hpath.symm, by rw [hpath]⟩

theorem CodeRegion.Contains.reaches (h : it.Contains c.codeAddr) (hu : it.Usable) :
    it.Reaches c.codeAddr :=
  ⟨hu, le_of_lt h.2⟩

theorem CodeRegion.EndsAt.reaches (h : it.EndsAt c.codeAddr) : it.Reaches c.codeAddr :=
  ⟨h.1, le_of_eq h.2⟩

/-- The other regions that reach the address are behind the first one. -/
theorem first_reaches {pre post : List CodeRegion} {z : CodeRegion}
    (hl : l.regions = pre ++ it :: post) (hpre : ∀ z ∈ pre, ¬ z.Reaches c.codeAddr)
    (hz : z ∈ l.regions) (h : z.Reaches c.codeAddr) :
    z = it ∨ it.start.toNat + it.size.toNat ≤ z.start.toNat := by
  have hsorted := l.ascending
  rw [hl] at hsorted hz
  obtain ⟨-, hpost, -⟩ := List.pairwise_append.mp hsorted
  obtain hz | rfl | hz := by simpa using hz
  · exact absurd h (hpre z hz)
  · exact .inl rfl
  · exact .inr ((List.pairwise_cons.mp hpost).1 z hz)

/-- A region that ends at the address is the first that reaches it. -/
theorem find_endsAt {pre post : List CodeRegion} (hl : l.regions = pre ++ it :: post)
    (hpre : ∀ z ∈ pre, ¬ z.Reaches c.codeAddr) (h : it.EndsAt c.codeAddr) :
    l.regions.find? (fun it => decide (it.EndsAt c.codeAddr)) = some it := by
  rw [List.find?_eq_some_iff_append]
  refine ⟨decide_eq_true h, pre, post, hl, fun z hz => ?_⟩
  simpa using fun hz' : z.EndsAt c.codeAddr => hpre z hz hz'.reaches

end Search

/-- **Attribution** to the region that contains the address: the executable regions that end at it are
in the way. -/
theorem codeAddrToRegion_iff (l : RegionList) (exeOffs : Ptr) (c : CodeAddr) :
    Attributed l exeOffs c (codeAddrToRegion exeOffs c l.regions) ↔
      ∀ it, l.regions.find? (fun it => decide (it.EndsAt c.codeAddr)) = some it →
        SameFile l exeOffs c.codeAddr it := by
  rw [codeAddrToRegion_eq l.ends]
  cases hfind : l.regions.find? fun it => decide (it.Reaches c.codeAddr) with
  | none =>
    have hno : ∀ it ∈ l.regions, ¬ it.Reaches c.codeAddr := by simpa using hfind
    refine iff_of_true (.inr ⟨fun it hit hu hc => hno it hit (hc.reaches hu), rfl⟩) ?_
    intro it hit
    have hends : it.EndsAt c.codeAddr := by simpa using List.find?_some hit
    exact absurd hends.reaches (hno it (List.mem_of_find?_eq_some hit))
  | some it =>
    obtain ⟨hreach, pre, post, hl, hpre⟩ := List.find?_eq_some_iff_append.mp hfind
    have hreach : it.Reaches c.codeAddr := by simpa using hreach
    have hpre : ∀ z ∈ pre, ¬ z.Reaches c.codeAddr := by simpa using hpre
    have hmem : it ∈ l.regions := by simp [hl]
    dsimp only
    rcases Nat.eq_or_lt_of_le hreach.2 with heq | hlt
    · -- the region in front of the address
      have hends : it.EndsAt c.codeAddr := ⟨hreach.1, heq⟩
      have hstart : ¬ c.codeAddr < it.start := by
        rw [BitVec.lt_def]
        omega
      rw [if_neg hstart, find_endsAt hl hpre hends]
      constructor
      · rintro (⟨next, hnext, hu, hc, hr⟩ | ⟨-, hr⟩)
        · intro z hz
          obtain rfl := Option.some.inj hz
          exact ⟨next, hnext, hu, hc, attribute_eq_iff.mp (congrArg Prod.snd hr)⟩
        · cases congrArg Prod.fst hr
      · intro h
        obtain ⟨next, hnext, hu, hc, hsame⟩ := h it rfl
        exact .inl ⟨next, hnext, hu, hc, congrArg (Prod.mk true) (attribute_eq_iff.mpr hsame)⟩
    · refine iff_of_true ?_ fun z hz => ?_
      · by_cases hstart : c.codeAddr < it.start
        · rw [if_pos hstart]
          rw [BitVec.lt_def] at hstart
          refine .inr ⟨fun z hz hu hc => ?_, rfl⟩
          have hle := hc.1
          rcases first_reaches hl hpre hz (hc.reaches hu) with rfl | hbehind
          · omega
          · omega
        · rw [if_neg hstart]
          rw [BitVec.lt_def, not_lt] at hstart
          exact .inl ⟨it, hmem, hreach.1, ⟨hstart, hlt⟩, rfl⟩
      · have hends : z.EndsAt c.codeAddr := by simpa using List.find?_some hz
        have heq := hends.2
        rcases first_reaches hl hpre (List.mem_of_find?_eq_some hz) hends.reaches with rfl | hbehind
        · omega
        · omega

/-- Two libraries that touch. -/
def touchingLibs : RegionList where
  regions := [
    { start := 0x7f0000001000, size := 0x1000, type := .code, exec := true,
      filePath := "/usr/lib/liba.so".toList, loadAddr := 0x7f0000001000 },
    { start := 0x7f0000002000, size := 0x1000, type := .code, exec := true,
      filePath := "/usr/lib/libb.so".toList, loadAddr := 0x7f0000002000 }]
  ends := by decide
  ascending := by decide

/-- The first byte of the second library is attributed to the first one. -/
theorem codeAddrToRegion_touching :
    codeAddrToRegion 0 ⟨0x7f0000002000, [], []⟩ touchingLibs.regions =
      (true, ⟨0x1000, "/usr/lib/liba.so".toList, "liba.so".toList⟩) ∧
    ¬ Attributed touchingLibs 0 ⟨0x7f0000002000, [], []⟩
      (codeAddrToRegion 0 ⟨0x7f0000002000, [], []⟩ touchingLibs.regions) := by
  refine ⟨by decide, ?_⟩
  rintro (⟨it, hit, -, hc, hr⟩ | ⟨-, hr⟩)
  · obtain rfl | rfl := by simpa [touchingLibs] using hit
    · exact absurd hc (by decide)
    · exact absurd hr (by decide)
  · exact absurd hr (by decide)

end UgTrain
