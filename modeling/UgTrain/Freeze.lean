import UgTrain.Passes
import UgTrain.ProcSteps

/-!
# The freeze decision

When `change_memory` may store the wish value of an entry, said without the order in which it finds
out: `ProcState.Freezes`. The lines of checks are looked at one by one and share one buffer, which
is the only place where that order can be seen.

* `ProcState.subject`: the value that a line is about, and `CheckEntry.Holds` whether it passes.
* `ProcState.lineBuf`: the shared buffer after a line has put its value there. The number of an
  object only fills the lower half of it.
* `Caches.Filled`: what reading does to the caches. It is the invariant of the loop over the lines.
-/

namespace UgTrain

open CLib

/-! ## Comparisons -/

/-- An integer type of the config. -/
def VType.IsInt (type : VType) : Prop := type.isFloat = false ∧ type.size ∈ [8, 16, 32, 64]

/-- Two values compared as numbers of a type. -/
def VType.Compares (type : VType) (a b : Value) : Check → Prop
  | .lt => Value.toInt type.isSigned type.size a < Value.toInt type.isSigned type.size b
  | .gt => Value.toInt type.isSigned type.size b < Value.toInt type.isSigned type.size a
  | .eq => Value.toInt type.isSigned type.size a = Value.toInt type.isSigned type.size b
  | .off | .fin => True

instance (type : VType) (a b : Value) : (check : Check) → Decidable (type.Compares a b check)
  | .lt | .gt => inferInstanceAs (Decidable (_ < _))
  | .eq => inferInstanceAs (Decidable (_ = _))
  | .off | .fin => isTrue trivial

section Compares

variable {type : VType} {a b x : Value} {check : Check} {w : Nat}

theorem VType.IsInt.size_le (h : type.IsInt) : type.size ≤ 64 := by
  have := h.2
  simp only [List.mem_cons, List.not_mem_nil, or_false] at this
  omega

theorem VType.IsInt.num (h : type.IsInt) : type.num = some (.int type.isSigned type.size) := by
  obtain ⟨hf, hs⟩ := h
  simp only [List.mem_cons, List.not_mem_nil, or_false] at hs
  rcases hs with h | h | h | h <;> simp [VType.num, hf, h]

theorem VType.IsInt.checkNum (h : type.IsInt) :
    type.checkNum = some (.int type.isSigned type.size) := by
  obtain ⟨hf, hs⟩ := h
  simp only [List.mem_cons, List.not_mem_nil, or_false] at hs
  rcases hs with h | h | h | h <;> simp [VType.checkNum, hf, h]

theorem checkMemVal_iff (check : Check) :
    (NumType.int type.isSigned type.size).checkMemVal a b check = true ↔
      type.Compares a b check := by
  cases check <;> simp [NumType.checkMemVal, NumType.lt, NumType.eq, VType.Compares]

theorem checkMemory_iff (h : type.IsInt) :
    checkMemory type a b check = true ↔ type.Compares a b check := by
  rw [checkMemory, h.checkNum, Option.any_some, checkMemVal_iff]

theorem setWidth_store_le (hle : type.size ≤ w) (hw : w ≤ 64) :
    (Value.store w x a).setWidth type.size = a.setWidth type.size := by
  have := congrArg (BitVec.setWidth type.size) (@setWidth_store x a w hw)
  rwa [BitVec.setWidth_setWidth_of_le _ hle, BitVec.setWidth_setWidth_of_le _ hle] at this

theorem toInt_store_le (hle : type.size ≤ w) (hw : w ≤ 64) :
    Value.toInt type.isSigned type.size (Value.store w x a) =
      Value.toInt type.isSigned type.size a := by
  simp only [Value.toInt, setWidth_store_le hle hw]

/-- The bits above those that are compared do not matter. -/
theorem compares_store (hle : type.size ≤ w) (hw : w ≤ 64) :
    type.Compares (Value.store w x a) b check ↔ type.Compares a b check := by
  cases check <;> simp only [VType.Compares, toInt_store_le hle hw]

theorem compares_store_right (hle : type.size ≤ w) (hw : w ≤ 64) :
    type.Compares a (Value.store w x b) check ↔ type.Compares a b check := by
  cases check <;> simp only [VType.Compares, toInt_store_le hle hw]

end Compares

/-! ## One line of checks -/

/-- The alternatives of a line, up to the end marker. -/
def CheckEntry.alternatives (chk : CheckEntry) : List (Check × Value) :=
  (chk.check.takeWhile (· ≠ .fin)).zip chk.value

/-- One of the alternatives holds for the value. -/
def CheckEntry.Holds (chk : CheckEntry) (v : Value) : Prop :=
  ∃ alt ∈ chk.alternatives, chk.type.Compares v alt.2 alt.1

/-- A line as the parser leaves it: an integer type, at least one alternative, a value for each of
them, and the end marker. -/
structure CheckEntry.Parsed (chk : CheckEntry) : Prop where
  int : chk.type.IsInt
  noCstr : chk.type.isCstr = false
  first : chk.check.head? ≠ some .fin
  marker : Check.fin ∈ chk.check
  values : (chk.check.takeWhile (· ≠ .fin)).length ≤ chk.value.length

/-- The alternatives are tried one by one. -/
theorem orCheckMemory_spec {type : VType} (v : Value) (ht : type.IsInt) :
    ∀ (checks : List Check) (values : List Value), checks.head? ≠ some .fin →
      Check.fin ∈ checks → (checks.takeWhile (· ≠ .fin)).length ≤ values.length →
      ∃ b, orCheckMemory type v checks values = .ok b ∧
        (b = true ↔ ∃ alt ∈ (checks.takeWhile (· ≠ .fin)).zip values,
          type.Compares v alt.2 alt.1)
  | [], _, _, hm, _ => by simp at hm
  | check :: checks, values, hf, hm, hl => by
    have hne : check ≠ .fin := fun h => hf (by rw [h]; rfl)
    rw [List.takeWhile_cons_of_pos (by simpa using hne)] at hl ⊢
    cases values with
    | nil => simp at hl
    | cons value values =>
      have hm' : Check.fin ∈ checks := by simpa [hne.symm] using hm
      unfold orCheckMemory
      by_cases hc : checkMemory type v value check = true
      · rw [if_pos hc]
        refine ⟨true, rfl, fun _ => ⟨(check, value), by simp, (checkMemory_iff ht).mp hc⟩,
          fun _ => rfl⟩
      · rw [if_neg hc]
        have hc' : ¬ type.Compares v value check := fun h => hc ((checkMemory_iff ht).mpr h)
        cases checks with
        | nil => simp at hm'
        | cons check' checks =>
          by_cases hfin : check' = .fin
          · subst hfin
            exact ⟨false, rfl, by simp [hc']⟩
          · obtain ⟨b, hb, hiff⟩ := orCheckMemory_spec v ht (check' :: checks)
              values (by simpa using hfin) hm' (by simpa using hl)
            refine ⟨b, by cases check' <;> first | exact hb | exact absurd rfl hfin, ?_⟩
            rw [hiff]
            simp [hc']

theorem orCheckMemory_iff {chk : CheckEntry} (v : Value) (h : chk.Parsed) :
    ∃ b, orCheckMemory chk.type v chk.check chk.value = .ok b ∧ (b = true ↔ chk.Holds v) :=
  orCheckMemory_spec v h.int chk.check chk.value h.first h.marker h.values

/-! ## What a line is about -/

section Subject

variable (chunk : Nat)

/-- The bytes that a cache shows: its own, or those of the target memory. -/
def ProcState.shown (s : ProcState) (memOffs : Ptr) (c : CacheEntry) : Option (List UInt8) :=
  if c.start = ptrMax then s.target.memread (memOffs + c.offs) chunk else some c.data

/-- The value that a line is about: of the reference, the number of the object, or from memory. -/
def ProcState.subject (s : ProcState) (dynmem : Option DynMemEntry) (memOffs : Ptr)
    (chk : CheckEntry) : Option Value :=
  match chk.cfgRef with
  | some cfgRef => (handleCfgRef s.opt cfgRef).toOption.join
  | none =>
    if chk.checkObjNum then dynmem.map fun dm => (BitVec.ofNat 32 dm.objIdx).setWidth 64
    else
      ((chk.cache.bind s.opt.caches.get?).bind (s.shown chunk memOffs)).map fun data =>
        Value.ofBytes ((data.drop chk.cacheData.toNat).take chk.type.bytes)

/-- The shared buffer after a line has put its value there. -/
def ProcState.lineBuf (s : ProcState) (dynmem : Option DynMemEntry) (memOffs : Ptr)
    (chk : CheckEntry) (buf : Value) : Option Value :=
  (s.subject chunk dynmem memOffs chk).map fun v =>
    if chk.cfgRef.isSome then v
    else if chk.checkObjNum then Value.store 32 buf v
    else Value.store chk.type.size buf v

/-- **A line is satisfied.** -/
def ProcState.LineHolds (s : ProcState) (dynmem : Option DynMemEntry) (memOffs : Ptr)
    (chk : CheckEntry) : Prop :=
  chk.type.isLate s.opt.libs = false ∧
    ∃ v, s.subject chunk dynmem memOffs chk = some v ∧ chk.Holds v

/-- A line passes with what the lines before it have left in the buffer. -/
def ProcState.LinePasses (s : ProcState) (dynmem : Option DynMemEntry) (memOffs : Ptr)
    (buf : Value) (chk : CheckEntry) : Prop :=
  chk.type.isLate s.opt.libs = false ∧
    ∃ v, s.lineBuf chunk dynmem memOffs chk buf = some v ∧ chk.Holds v

/-- A property of all lines, each with what the lines before it leave in the buffer. -/
def ProcState.EachLine (s : ProcState) (dynmem : Option DynMemEntry) (memOffs : Ptr)
    (P : Value → CheckEntry → Prop) : Value → List CheckEntry → Prop
  | _, [] => True
  | buf, chk :: chks => P buf chk ∧
      s.EachLine dynmem memOffs P ((s.lineBuf chunk dynmem memOffs chk buf).getD buf) chks

/-- The references of the lines that are reached have an index in range. -/
def ProcState.RefsInRange (s : ProcState) (dynmem : Option DynMemEntry) (memOffs : Ptr) :
    Value → List CheckEntry → Prop
  | _, [] => True
  | buf, chk :: chks => chk.type.isLate s.opt.libs = false →
      (∀ cfgRef, chk.cfgRef = some cfgRef → (handleCfgRef s.opt cfgRef).isOk = true) ∧
      (s.LinePasses chunk dynmem memOffs buf chk →
        s.RefsInRange dynmem memOffs ((s.lineBuf chunk dynmem memOffs chk buf).getD buf) chks)

end Subject

/-- The number of an object compared in 64 bits. -/
def CheckEntry.Wide (chk : CheckEntry) : Prop :=
  chk.cfgRef = none ∧ chk.checkObjNum = true ∧ chk.type.size = 64

section Line

variable {chunk : Nat} {s : ProcState} {dynmem : Option DynMemEntry} {memOffs : Ptr} {buf : Value}
  {chk : CheckEntry} {chks : List CheckEntry}

/-- Only for the wide number of an object does it matter what was in the buffer. -/
theorem linePasses_iff (hp : chk.Parsed) (hw : ¬ chk.Wide) :
    s.LinePasses chunk dynmem memOffs buf chk ↔ s.LineHolds chunk dynmem memOffs chk := by
  have hle := hp.int.size_le
  have h32 : chk.cfgRef = none → chk.checkObjNum = true → chk.type.size ≤ 32 := by
    intro hr ho
    have hs := hp.int.2
    simp only [List.mem_cons, List.not_mem_nil, or_false] at hs
    have : chk.type.size ≠ 64 := fun h => hw ⟨hr, ho, h⟩
    omega
  refine and_congr Iff.rfl ?_
  simp only [ProcState.lineBuf, Option.map_eq_some_iff]
  have hiff : ∀ v, chk.Holds (if chk.cfgRef.isSome then v
      else if chk.checkObjNum then Value.store 32 buf v else Value.store chk.type.size buf v) ↔
        chk.Holds v := by
    intro v
    split
    · rfl
    · rename_i hr
      have hr' : chk.cfgRef = none := by simpa using hr
      split
      · rename_i ho
        exact exists_congr fun alt => and_congr_right fun _ =>
          compares_store (h32 hr' ho) (by decide)
      · exact exists_congr fun alt => and_congr_right fun _ => compares_store (le_refl _) hle
  constructor
  · rintro ⟨-, ⟨v, hv, rfl⟩, hh⟩
    exact ⟨v, hv, (hiff v).mp hh⟩
  · rintro ⟨v, hv, hh⟩
    exact ⟨_, ⟨v, hv, rfl⟩, (hiff v).mpr hh⟩

/-- The lines pass if those about a wide number do and the others are satisfied. -/
theorem eachLine_passes_iff (hp : ∀ chk ∈ chks, chk.Parsed) :
    s.EachLine chunk dynmem memOffs (s.LinePasses chunk dynmem memOffs) buf chks ↔
      (∀ chk ∈ chks, ¬ chk.Wide → s.LineHolds chunk dynmem memOffs chk) ∧
      s.EachLine chunk dynmem memOffs
        (fun buf chk => chk.Wide → s.LinePasses chunk dynmem memOffs buf chk) buf chks := by
  induction chks generalizing buf with
  | nil => simp [ProcState.EachLine]
  | cons chk chks ih =>
    simp only [ProcState.EachLine, List.forall_mem_cons,
      ih fun c hc => hp c (List.mem_cons_of_mem chk hc)]
    by_cases hw : chk.Wide
    · simp only [hw, not_true, false_implies, true_implies, true_and]
      tauto
    · simp only [hw, not_false_iff, false_implies, true_implies, true_and,
        linePasses_iff (hp chk List.mem_cons_self) hw]
      tauto

end Line

/-! ## The loop over the lines -/

/-- The caches after reading: some of those that were not valid have the target memory now. -/
def ProcState.Filled (chunk : Nat) (s : ProcState) (memOffs : Ptr) (caches : Caches) : Prop :=
  ∀ r, caches.get? r = s.opt.caches.get? r ∨ ∃ c data, s.opt.caches.get? r = some c ∧
    c.start = ptrMax ∧ s.target.memread (memOffs + c.offs) chunk = some data ∧
    caches.get? r = some { c with start := memOffs + c.offs, data := data }

/-- A line can be processed: the object that its number is about is there, and its cache covers its
bytes and can be read. -/
structure ProcState.LineReady (chunk : Nat) (s : ProcState) (dynmem : Option Nat) (memOffs : Ptr)
    (chk : CheckEntry) : Prop where
  parsed : chk.Parsed
  object : chk.cfgRef = none → chk.checkObjNum = true → (s.opt.dynmem? dynmem).isSome = true
  cached : chk.cfgRef = none → chk.checkObjNum = false → ∃ c, chk.cache.bind s.opt.caches.get? =
    some c ∧ c.data.length = chunk ∧ chk.cacheData.toNat + chk.type.bytes ≤ chunk ∧
      (c.start = ptrMax → (s.target.memread (memOffs + c.offs) chunk).isSome = true)

section Loop

variable {chunk : Nat} {s : ProcState} {dynmem : Option Nat} {memOffs : Ptr} {buf v : Value}
  {chk : CheckEntry} {chks : List CheckEntry} {caches : Caches}

theorem filled_refl : s.Filled chunk memOffs s.opt.caches := fun _ => .inl rfl

theorem length_memread {t : Target} {addr : Ptr} {n : Nat} {data : List UInt8}
    (h : t.memread addr n = some data) : data.length = n := by
  unfold Target.memread at h
  split at h
  · cases h
  · cases h
    simp

theorem copyToBuf_ok {type : VType} {data : List UInt8} {cacheData : Ptr} (ht : type.IsInt)
    (hl : cacheData.toNat + type.bytes ≤ data.length) :
    copyToBuf type data cacheData buf = .ok (Value.store type.size buf
      (Value.ofBytes ((data.drop cacheData.toNat).take type.bytes))) := by
  have h8 : 8 * type.bytes = type.size := by
    have hs := ht.2
    rw [VType.bytes_of_usual hs]
    simp only [List.mem_cons, List.not_mem_nil, or_false] at hs
    omega
  have hle := ht.size_le
  simp only [copyToBuf, h8]
  rw [if_neg (by omega)]

/-- Reading fills the cache of the line, if it is not valid, and takes the value from there. -/
theorem fillCacheAndBuf_filled (buf : Value) (hl : s.LineReady chunk dynmem memOffs chk)
    (hr : chk.cfgRef = none) (ho : chk.checkObjNum = false) (hf : s.Filled chunk memOffs caches) :
    ∃ caches', s.Filled chunk memOffs caches' ∧
      fillCacheAndBuf chunk chk.type chk.cache chk.cacheData memOffs buf (s.withCaches caches) =
        .ok (s.lineBuf chunk (s.opt.dynmem? dynmem) memOffs chk buf, s.withCaches caches') := by
  obtain ⟨c, hc, hlen, hin, hread⟩ := hl.cached hr ho
  obtain ⟨r, hcache, hget⟩ := Option.bind_eq_some_iff.mp hc
  have hsub : s.lineBuf chunk (s.opt.dynmem? dynmem) memOffs chk buf =
      ((s.shown chunk memOffs c).map fun data => Value.store chk.type.size buf
        (Value.ofBytes ((data.drop chk.cacheData.toNat).take chk.type.bytes))) := by
    simp only [ProcState.lineBuf, ProcState.subject, hr, ho, hc, Option.bind_some, Option.map_map,
      Option.isSome_none, Bool.false_eq_true, if_false]
    rfl
  unfold fillCacheAndBuf
  rw [hsub, hl.parsed.noCstr]
  simp only [Bool.false_eq_true, if_false, hcache, Option.bind_some]
  -- the cache may have been filled by an earlier line
  rcases hf r with h | ⟨c₀, data, hc₀, hstart, hdata, h⟩
  · have hget' : (s.withCaches caches).opt.caches.get? r = some c := h.trans hget
    simp only [hget', Option.map_some]
    by_cases hstart : c.start = ptrMax
    · obtain ⟨data, hdata⟩ := Option.isSome_iff_exists.mp (hread hstart)
      have hdata' : (s.withCaches caches).target.memread (memOffs + c.offs) chunk = some data :=
        hdata
      rw [if_pos hstart, hdata']
      simp only [copyToBuf_ok hl.parsed.int (by rw [length_memread hdata]; exact hin),
        Run.ok_bind, ProcState.shown, hstart, if_true, hdata, Option.map_some]
      refine ⟨caches.modify r fun c => { c with start := memOffs + c.offs, data := data },
        fun r' => ?_, rfl⟩
      rw [modify_get?]
      by_cases hrr : r' = r
      · subst hrr
        rw [if_pos rfl]
        have hcs : caches.get? r' = some c := hget'
        exact .inr ⟨c, data, hget, hstart, hdata, by rw [hcs]; rfl⟩
      · rw [if_neg hrr]
        exact hf r'
    · rw [if_neg hstart]
      simp only [copyToBuf_ok hl.parsed.int (by rw [hlen]; exact hin), Run.ok_bind,
        ProcState.shown, hstart, if_false, Option.map_some]
      exact ⟨caches, hf, rfl⟩
  · cases hget.symm.trans hc₀
    have hget' : (s.withCaches caches).opt.caches.get? r =
        some { c with start := memOffs + c.offs, data := data } := h
    have hdata' : (s.withCaches caches).target.memread (memOffs + c.offs) chunk = some data :=
      hdata
    have hlen' := length_memread hdata
    simp only [hget', Option.map_some, ProcState.shown, hstart, if_true, hdata]
    split
    · rw [hdata']
      simp only [copyToBuf_ok hl.parsed.int (by rw [hlen']; exact hin), Run.ok_bind]
      refine ⟨caches.modify r fun c => { c with start := memOffs + c.offs, data := data },
        fun r' => ?_, rfl⟩
      rw [modify_get?]
      by_cases hrr : r' = r
      · subst hrr
        rw [if_pos rfl]
        exact .inr ⟨c, data, hget, hstart, hdata, by rw [h]; rfl⟩
      · rw [if_neg hrr]
        exact hf r'
    · simp only [copyToBuf_ok hl.parsed.int (by rw [hlen']; exact hin), Run.ok_bind]
      exact ⟨caches, hf, rfl⟩

/-- The value of a line whose reference, if it has one, is in range. -/
theorem checkValue_filled (buf : Value) (hl : s.LineReady chunk dynmem memOffs chk)
    (hr : ∀ cfgRef, chk.cfgRef = some cfgRef → (handleCfgRef s.opt cfgRef).isOk = true)
    (hf : s.Filled chunk memOffs caches) :
    ∃ caches', s.Filled chunk memOffs caches' ∧
      checkValue chunk (s.opt.dynmem? dynmem) memOffs chk buf (s.withCaches caches) =
        .ok (s.lineBuf chunk (s.opt.dynmem? dynmem) memOffs chk buf, s.withCaches caches') := by
  unfold checkValue
  cases href : chk.cfgRef with
  | some cfgRef =>
    obtain ⟨b, hb⟩ := Run.exists_ok_of_isOk (hr cfgRef href)
    have hb' : handleCfgRef (s.withCaches caches).opt cfgRef = .ok b := hb
    refine ⟨caches, hf, ?_⟩
    simp only [hb', Run.ok_bind, ProcState.lineBuf, ProcState.subject, href, hb]
    cases b <;> rfl
  | none =>
    cases ho : chk.checkObjNum with
    | false =>
      obtain ⟨caches', hf', h⟩ := fillCacheAndBuf_filled buf hl href ho hf
      exact ⟨caches', hf', h⟩
    | true =>
      obtain ⟨dm, hdm⟩ := Option.isSome_iff_exists.mp (hl.object href ho)
      refine ⟨caches, hf, ?_⟩
      simp only [hdm, ProcState.lineBuf, ProcState.subject, href, ho, if_true, Option.map_some,
        Option.isSome_none, Bool.false_eq_true, if_false]
      -- only the lower half of the number is stored
      have h32 : (BitVec.ofNat 64 dm.objIdx).setWidth 32 =
          ((BitVec.ofNat 32 dm.objIdx).setWidth 64).setWidth 32 := by
        rw [BitVec.setWidth_setWidth_of_le _ (by decide), BitVec.setWidth_eq,
          BitVec.setWidth_ofNat_of_le (by decide)]
      simp only [Value.store, h32]
      rfl

theorem fault_of_not_ok {cfgRef : Nat} (h : ¬ (handleCfgRef s.opt cfgRef).isOk = true) :
    ∃ err, handleCfgRef s.opt cfgRef = .error err := by
  cases hc : handleCfgRef s.opt cfgRef with
  | error err => exact ⟨err, rfl⟩
  | ok b => exact absurd (by rw [hc]; rfl) h

/-- What the loop over the lines gives: it passes if every line does, and all it leaves behind are
filled caches and perhaps a kicked object. -/
def ProcState.Checked (chunk : Nat) (s : ProcState) (dynmem : Option Nat) (memOffs : Ptr)
    (buf : Value) (chks : List CheckEntry) (r : Except Fault (Bool × ProcState)) : Prop :=
  (s.RefsInRange chunk (s.opt.dynmem? dynmem) memOffs buf chks → ∃ b s', r = .ok (b, s') ∧
    (b = true ↔ s.EachLine chunk (s.opt.dynmem? dynmem) memOffs
      (s.LinePasses chunk (s.opt.dynmem? dynmem) memOffs) buf chks) ∧
    s'.opt.entries = s.opt.entries ∧ s.Filled chunk memOffs s'.opt.caches) ∧
  (¬ s.RefsInRange chunk (s.opt.dynmem? dynmem) memOffs buf chks → ∃ err, r = .error err)

/-- A line that ends the loop. -/
theorem ProcState.Checked.fails {s' : ProcState} (href : ∀ cfgRef, chk.cfgRef = some cfgRef →
      (handleCfgRef s.opt cfgRef).isOk = true)
    (hline : ¬ s.LinePasses chunk (s.opt.dynmem? dynmem) memOffs buf chk)
    (he : s'.opt.entries = s.opt.entries) (hf : s.Filled chunk memOffs s'.opt.caches) :
    s.Checked chunk dynmem memOffs buf (chk :: chks) (.ok (false, s')) := by
  refine ⟨fun _ => ⟨false, s', rfl, ⟨nofun, fun h => absurd h.1 hline⟩, he, hf⟩,
    fun h => absurd (fun _ => ⟨href, fun hp => absurd hp hline⟩) h⟩

/-- **The loop over the lines.** -/
theorem processChecks_checked (buf : Value)
    (hl : ∀ chk ∈ chks, s.LineReady chunk dynmem memOffs chk)
    (hobj : ∀ dm, s.opt.dynmem? dynmem = some dm → dm.objIdx < dm.vMaddr.length)
    (hf : s.Filled chunk memOffs caches) :
    s.Checked chunk dynmem memOffs buf chks
      (processChecks chunk dynmem memOffs chks buf (s.withCaches caches)) := by
  induction chks generalizing buf caches with
  | nil =>
    exact ⟨fun _ => ⟨true, _, rfl, by simp [ProcState.EachLine], rfl, hf⟩,
      fun h => absurd trivial h⟩
  | cons chk chks ih =>
    obtain ⟨hready, hl'⟩ := List.forall_mem_cons.mp hl
    unfold processChecks
    have hlibs : (s.withCaches caches).opt.libs = s.opt.libs := rfl
    have hdyn : (s.withCaches caches).opt.dynmem? dynmem = s.opt.dynmem? dynmem := rfl
    rw [hlibs, hdyn]
    by_cases hlate : chk.type.isLate s.opt.libs = true
    · rw [if_pos hlate]
      have hno : ¬ s.LinePasses chunk (s.opt.dynmem? dynmem) memOffs buf chk :=
        fun h => by rw [h.1] at hlate; cases hlate
      refine ⟨fun _ => ⟨false, _, rfl, ⟨fun h => absurd h Bool.false_ne_true,
        fun h => absurd h.1 hno⟩, rfl, hf⟩, fun h => absurd (fun h0 => ?_) h⟩
      rw [h0] at hlate
      cases hlate
    · have hnot : chk.type.isLate s.opt.libs = false := by simpa using hlate
      rw [if_neg hlate]
      have hskip : ¬ (chk.cfgRef.isNone && chk.checkObjNum &&
          (s.opt.dynmem? dynmem).isNone) = true := by
        intro h
        simp only [Bool.and_eq_true, Option.isNone_iff_eq_none] at h
        have := hready.object h.1.1 h.1.2
        rw [h.2] at this
        cases this
      rw [if_neg hskip]
      by_cases href : ∀ cfgRef, chk.cfgRef = some cfgRef →
          (handleCfgRef s.opt cfgRef).isOk = true
      · obtain ⟨caches', hf', hval⟩ := checkValue_filled buf hready href hf
        simp only [hval, Run.ok_bind]
        cases hb : s.lineBuf chunk (s.opt.dynmem? dynmem) memOffs chk buf with
        | none =>
          refine ProcState.Checked.fails href (fun h => ?_) rfl hf'
          obtain ⟨-, v, hv, -⟩ := h
          rw [hb] at hv
          cases hv
        | some v =>
          obtain ⟨b, hor, hiff⟩ := orCheckMemory_iff v hready.parsed
          simp only [hor, Run.ok_bind]
          have hline : s.LinePasses chunk (s.opt.dynmem? dynmem) memOffs buf chk ↔ b = true := by
            rw [hiff]
            constructor
            · rintro ⟨-, v', hv', hh⟩
              rw [hb] at hv'
              cases hv'
              exact hh
            · exact fun hh => ⟨hnot, v, hb, hh⟩
          cases b with
          | true =>
            have hpass := hline.mpr rfl
            obtain ⟨h1, h2⟩ := ih v hl' hf'
            simp only [if_true]
            have hrefs : s.RefsInRange chunk (s.opt.dynmem? dynmem) memOffs buf (chk :: chks) ↔
                s.RefsInRange chunk (s.opt.dynmem? dynmem) memOffs v chks := by
              simp only [ProcState.RefsInRange, hnot, true_implies, hb, Option.getD_some]
              exact ⟨fun h => h.2 hpass, fun h => ⟨href, fun _ => h⟩⟩
            refine ⟨fun h => ?_, fun h => h2 fun h' => h (hrefs.mpr h')⟩
            obtain ⟨b, s', hr, hb', hrest⟩ := h1 (hrefs.mp h)
            refine ⟨b, s', hr, ?_, hrest⟩
            rw [hb']
            simp only [ProcState.EachLine, hb, Option.getD_some, hpass, true_and]
          | false =>
            have hno : ¬ s.LinePasses chunk (s.opt.dynmem? dynmem) memOffs buf chk :=
              fun h => by cases hline.mp h
            simp only [Bool.false_eq_true, if_false]
            have hfail : s.Checked chunk dynmem memOffs buf (chk :: chks)
                (.ok (false, s.withCaches caches')) := ProcState.Checked.fails href hno rfl hf'
            have hdyn' : (s.withCaches caches').opt.dynmem? dynmem = s.opt.dynmem? dynmem := rfl
            rw [hdyn']
            split
            · rename_i d dm hdm
              rw [if_pos (hobj dm hdm)]
              split
              · exact ProcState.Checked.fails href hno rfl hf'
              · exact hfail
            · exact hfail
      · obtain ⟨cfgRef, hcr, hbad⟩ : ∃ cfgRef, chk.cfgRef = some cfgRef ∧
            ¬ (handleCfgRef s.opt cfgRef).isOk = true := by
          by_contra h
          exact href fun cfgRef hcr => by
            by_contra hb
            exact h ⟨cfgRef, hcr, hb⟩
        obtain ⟨err, herr⟩ := fault_of_not_ok hbad
        have herr' : handleCfgRef (s.withCaches caches).opt cfgRef = .error err := herr
        refine ⟨fun h => absurd ((h hnot).1) href, fun _ => ⟨err, ?_⟩⟩
        simp only [checkValue, hcr, herr']
        rfl

end Loop

/-! ## The decision -/

section Decision

variable (chunk : Nat) (s : ProcState) (e : Nat) (en : CfgEntry) (memOffs : Ptr)
  (slot : Option Nat)

/-- The value was read: it is the old value now, and the flag is cleared. -/
def ProcState.afterRead : ProcState :=
  ((s.modifyVals e (·.setFlag false)).emit (.read e slot s.buf)).modifyVals e
    (·.setOld slot (Value.store en.type.size ((en.vals.old? slot).getD 0) s.buf))

/-- The wish value for the value that was read. -/
def ProcState.wish : Value :=
  let value := (en.vals.wish? slot).getD 0
  match en.dynval with
  | .max => if en.type.Compares value s.buf .lt then Value.store en.type.size value s.buf else value
  | .min => if en.type.Compares value s.buf .gt then Value.store en.type.size value s.buf else value
  | .addr =>
    match en.cfgRef with
    | some cfgRef =>
      match (handleCfgRef (s.afterRead e en slot).opt cfgRef).toOption.join with
      | some buf => Value.store en.type.size value (buf + en.cfgRefAdd)
      | none => Value.store en.type.size value 0
    | none =>
      match s.target.memread (memOffs + en.valAddr) 8 with
      | some data => Value.store en.type.size value (Value.ofBytes data)
      | none => value
  | _ => value

/-- The wish value is determined: the state in which the lines are looked at. -/
def ProcState.afterWish : ProcState :=
  (s.afterRead e en slot).modifyVals e (·.setWish slot (s.wish e en memOffs slot))

/-- The part of the decision that the entry makes itself. -/
def ProcState.Wants : Prop :=
  en.dynval ≠ .watch ∧ en.type.Compares s.buf (s.wish e en memOffs slot) en.check ∧
    (en.cfgRef.isSome = true → ¬ en.type.Compares (s.wish e en memOffs slot) 0 .eq)

/-- **The decision**: the entry wants its wish value, and every line is satisfied. -/
def ProcState.Freezes : Prop :=
  s.Wants e en memOffs slot ∧ ∀ chk ∈ en.checks.getD [],
    (s.afterWish e en memOffs slot).LineHolds chunk (s.opt.dynmem? en.dynmem) memOffs chk

/-- What `build_caches`, the parser and the callers provide, and that reads succeed. -/
structure ProcState.FreezeReady : Prop where
  entry : s.opt.entries[e]? = some en
  int : en.type.IsInt
  old : (en.vals.old? slot).isSome = true
  value : (en.vals.wish? slot).isSome = true
  cstr : (en.vals.cstr? slot).isSome = true
  cache : ∃ c, en.cache.bind s.opt.caches.get? = some c ∧ c.start ≠ ptrMax ∧
    en.cacheData.toNat + en.type.bytes ≤ c.data.length
  lines : ∀ chk ∈ en.checks.getD [], s.LineReady chunk en.dynmem memOffs chk
  object : ∀ dm, s.opt.dynmem? en.dynmem = some dm → dm.objIdx < dm.vMaddr.length
  wishRead : en.dynval = .addr → en.cfgRef = none →
    (s.target.memread (memOffs + en.valAddr) 8).isSome = true

end Decision

def ProcState.valSet? (s : ProcState) (e : Nat) : Option Bool :=
  (s.opt.entries[e]?).map (·.vals.valSet)

def CacheEntry.write (c : CacheEntry) (cacheData : Ptr) (bytes : List UInt8) : CacheEntry :=
  { c with
    data := c.data.take cacheData.toNat ++ bytes ++ c.data.drop (cacheData.toNat + bytes.length)
    isDirty := true }

/-- The wish value is in the cache of the entry. -/
def ProcState.Stored (s s' : ProcState) (e : Nat) (en : CfgEntry) (value : Value) : Prop :=
  s'.valSet? e = some true ∧ en.cache.bind s'.opt.caches.get? =
    (en.cache.bind s.opt.caches.get?).map (·.write en.cacheData (value.bytes en.type.bytes))

/-- The cache of the entry is as it was. -/
def ProcState.Kept (s s' : ProcState) (e : Nat) (en : CfgEntry) : Prop :=
  s'.valSet? e = some false ∧ en.cache.bind s'.opt.caches.get? = en.cache.bind s.opt.caches.get?

/-- `change_memory` stores the wish value if the decision says so, and only then. -/
def ProcState.Decided (chunk : Nat) (s : ProcState) (e : Nat) (en : CfgEntry) (memOffs : Ptr)
    (slot : Option Nat) : Prop :=
  ∃ s', changeMemory chunk e en memOffs slot s = .ok s' ∧
    (s.Freezes chunk e en memOffs slot → s.Stored s' e en (s.wish e en memOffs slot)) ∧
    (¬ s.Freezes chunk e en memOffs slot → s.Kept s' e en)

/-- When the order of the lines cannot be seen: the references that are looked at are in range, and
where all else is satisfied, what the lines before have left above the wide numbers of objects does
not turn the comparison. -/
structure ProcState.Clear (chunk : Nat) (s : ProcState) (e : Nat) (en : CfgEntry) (memOffs : Ptr)
    (slot : Option Nat) : Prop where
  wishRef : en.dynval = .addr → ∀ cfgRef, en.cfgRef = some cfgRef →
    (handleCfgRef (s.afterRead e en slot).opt cfgRef).isOk = true
  refs : en.dynval ≠ .watch → (s.afterWish e en memOffs slot).RefsInRange chunk
    (s.opt.dynmem? en.dynmem) memOffs s.junk (en.checks.getD [])
  numbers : s.Wants e en memOffs slot →
    (∀ chk ∈ en.checks.getD [], ¬ chk.Wide →
      (s.afterWish e en memOffs slot).LineHolds chunk (s.opt.dynmem? en.dynmem) memOffs chk) →
    ((∀ chk ∈ en.checks.getD [], chk.Wide →
        (s.afterWish e en memOffs slot).LineHolds chunk (s.opt.dynmem? en.dynmem) memOffs chk) ↔
      (s.afterWish e en memOffs slot).EachLine chunk (s.opt.dynmem? en.dynmem) memOffs
        (fun buf chk => chk.Wide → (s.afterWish e en memOffs slot).LinePasses chunk
          (s.opt.dynmem? en.dynmem) memOffs buf chk) s.junk (en.checks.getD []))

section Decide

variable {chunk : Nat} {s s' : ProcState} {e : Nat} {en : CfgEntry} {memOffs : Ptr}
  {slot : Option Nat}

theorem valSet?_modifyVals {f : EntryVals → EntryVals} :
    (s.modifyVals e f).valSet? e = (s.opt.entries[e]?).map fun en => (f en.vals).valSet := by
  simp only [ProcState.valSet?, ProcState.modifyVals, List.getElem?_modify_eq, Option.map_eq_map,
    Option.map_map]
  rfl

theorem entries_modifyCache {r : CacheRef} {f : CacheEntry → CacheEntry} :
    (s.modifyCache r f).opt.entries = s.opt.entries := rfl

theorem valSet?_emit {ev : ProcEvent} : (s.emit ev).valSet? e = s.valSet? e := rfl

theorem valSet?_afterRead (he : s.opt.entries[e]? = some en) :
    (s.afterRead e en slot).valSet? e = some false := by
  have h : (s.modifyVals e (·.setFlag false)).valSet? e = some false := by
    rw [valSet?_modifyVals, he]
    rfl
  unfold ProcState.afterRead
  rw [valSet?_modifyVals]
  simp only [valSet_setOld]
  exact h

theorem valSet?_afterWish (he : s.opt.entries[e]? = some en) :
    (s.afterWish e en memOffs slot).valSet? e = some false := by
  unfold ProcState.afterWish
  rw [valSet?_modifyVals]
  simp only [valSet_setWish]
  exact valSet?_afterRead he

theorem handleDynval_wish (h : s.FreezeReady chunk e en memOffs slot) (hw : en.dynval ≠ .watch)
    (href : en.dynval = .addr → ∀ cfgRef, en.cfgRef = some cfgRef →
      (handleCfgRef (s.afterRead e en slot).opt cfgRef).isOk = true)
    {cstr : Option (List UInt8)} :
    handleDynval (.int en.type.isSigned en.type.size) e en
      (Value.store en.type.size ((en.vals.old? slot).getD 0) s.buf)
      ((en.vals.wish? slot).getD 0) cstr memOffs slot (s.afterRead e en slot) =
        .ok (s.wish e en memOffs slot, s.afterRead e en slot) := by
  have hle : en.type.size ≤ 64 := h.int.size_le
  have htarget : (s.afterRead e en slot).target = s.target := rfl
  have hstore : ∀ v, Value.store en.type.size v
      (Value.store en.type.size ((en.vals.old? slot).getD 0) s.buf) =
        Value.store en.type.size v s.buf :=
    fun v => NumType.store_store (t := .int en.type.isSigned en.type.size) hle
  have hlt : ∀ v, (NumType.int en.type.isSigned en.type.size).lt v
      (Value.store en.type.size ((en.vals.old? slot).getD 0) s.buf) = true ↔
        en.type.Compares v s.buf .lt :=
    fun v => (checkMemVal_iff .lt).trans (compares_store_right (le_refl _) hle)
  have hgt : ∀ v, (NumType.int en.type.isSigned en.type.size).lt
      (Value.store en.type.size ((en.vals.old? slot).getD 0) s.buf) v = true ↔
        en.type.Compares v s.buf .gt :=
    fun v => (checkMemVal_iff .gt).trans (compares_store_right (le_refl _) hle)
  unfold handleDynval ProcState.wish
  cases hd : en.dynval with
  | watch => exact absurd hd hw
  | off | ptrOnce | ptrAlways => rfl
  | max =>
    simp only [hlt, NumType.store, NumType.width, hstore]
    rfl
  | min =>
    simp only [hgt, NumType.store, NumType.width, hstore]
    rfl
  | addr =>
    cases hr : en.cfgRef with
    | none =>
      obtain ⟨data, hdata⟩ := Option.isSome_iff_exists.mp (h.wishRead hd hr)
      simp only [htarget, hdata]
      rfl
    | some cfgRef =>
      obtain ⟨b, hb⟩ := Run.exists_ok_of_isOk (href hd cfgRef hr)
      simp only [hb, Run.ok_bind]
      cases b <;> rfl

/-- `change_memory` up to the decision. -/
theorem changeMemory_eq (h : s.FreezeReady chunk e en memOffs slot) :
    ∃ cstr, changeMemory chunk e en memOffs slot s =
      (handleDynval (.int en.type.isSigned en.type.size) e en
        (Value.store en.type.size ((en.vals.old? slot).getD 0) s.buf)
        ((en.vals.wish? slot).getD 0) cstr memOffs slot (s.afterRead e en slot)) >>= fun r =>
          changeMemVal chunk (.int en.type.isSigned en.type.size) e en
            (Value.store en.type.size ((en.vals.old? slot).getD 0) s.buf) r.1 memOffs slot
            (r.2.modifyVals e (·.setWish slot r.1)) := by
  obtain ⟨old, hold⟩ := Option.isSome_iff_exists.mp h.old
  obtain ⟨value, hvalue⟩ := Option.isSome_iff_exists.mp h.value
  obtain ⟨cstr, hcstr⟩ := Option.isSome_iff_exists.mp h.cstr
  have he := entry_modifyVals (f := (·.setFlag false)) h.entry
  have hopt : ((s.modifyVals e (·.setFlag false)).emit (.read e slot s.buf)).opt =
      (s.modifyVals e (·.setFlag false)).opt := rfl
  refine ⟨cstr, ?_⟩
  unfold changeMemory
  simp only [hopt, he, Option.bind_some, old?_setFlag, wish?_setFlag, cstr?_setFlag, hold, hvalue,
    hcstr, h.int.num, Option.getD_some, ProcState.afterRead]
  rfl

theorem passChecks_checked (h : s.FreezeReady chunk e en memOffs slot) :
    (s.afterWish e en memOffs slot).Checked chunk en.dynmem memOffs s.junk (en.checks.getD [])
      (passChecks chunk en memOffs (s.afterWish e en memOffs slot)) := by
  have hl : ∀ chk ∈ en.checks.getD [],
      (s.afterWish e en memOffs slot).LineReady chunk en.dynmem memOffs chk := fun chk hchk =>
    have hready := h.lines chk hchk
    ⟨hready.parsed, hready.object, hready.cached⟩
  have hchecked := processChecks_checked s.junk (s := s.afterWish e en memOffs slot) hl h.object
    filled_refl
  unfold passChecks
  cases hchks : en.checks with
  | none =>
    rw [hchks] at hchecked
    exact hchecked
  | some chks =>
    rw [hchks] at hchecked
    exact hchecked

/-- A cache that was valid is not filled again. -/
theorem cache_filled {caches : Caches} {c : CacheEntry} {cache : Option CacheRef}
    (hf : s.Filled chunk memOffs caches) (hc : cache.bind s.opt.caches.get? = some c)
    (hstart : c.start ≠ ptrMax) : cache.bind caches.get? = some c := by
  obtain ⟨r, rfl, hget⟩ := Option.bind_eq_some_iff.mp hc
  rcases hf r with h | ⟨c', data, hc', hs, -, -⟩
  · exact h.trans hget
  · cases hget.symm.trans hc'
    exact absurd hs hstart

theorem storeVal_stored (hi : en.type.IsInt) (value : Value) (slot : Option Nat) {c : CacheEntry}
    (he : (s.opt.entries[e]?).isSome = true)
    (hc : en.cache.bind s.opt.caches.get? = some c)
    (hin : en.cacheData.toNat + en.type.bytes ≤ c.data.length) :
    ∃ s', storeVal (.int en.type.isSigned en.type.size) e en value slot s = .ok s' ∧
      s.Stored s' e en value := by
  obtain ⟨r, hr, hget⟩ := Option.bind_eq_some_iff.mp hc
  obtain ⟨en', he'⟩ := Option.isSome_iff_exists.mp he
  have hwidth : (NumType.int en.type.isSigned en.type.size).width / 8 = en.type.bytes :=
    (VType.bytes_of_usual hi.2).symm
  unfold storeVal
  simp only [hr, Option.bind_some, hget, Option.map_some, hwidth]
  rw [if_neg (by omega)]
  refine ⟨_, rfl, ?_, ?_⟩
  · rw [valSet?_emit, valSet?_modifyVals, entries_modifyCache, he']
    rfl
  · simp only [hr, Option.bind_some, hget, Option.map_some, CacheEntry.write, length_bytes]
    refine Eq.trans modify_get? ?_
    rw [if_pos rfl, hget]
    rfl

theorem ProcState.Stored.not_kept {value : Value} (h : s.Stored s' e en value) :
    ¬ s.Kept s' e en := by
  intro hk
  have := h.1.symm.trans hk.1
  cases this

/-- After the checks: what is left of the decision. -/
theorem changeMemVal_decides (h : s.FreezeReady chunk e en memOffs slot)
    (hw : en.dynval ≠ .watch) (hrefs : (s.afterWish e en memOffs slot).RefsInRange chunk
      (s.opt.dynmem? en.dynmem) memOffs s.junk (en.checks.getD [])) :
    ∃ s', changeMemVal chunk (.int en.type.isSigned en.type.size) e en
        (Value.store en.type.size ((en.vals.old? slot).getD 0) s.buf)
        (s.wish e en memOffs slot) memOffs slot (s.afterWish e en memOffs slot) = .ok s' ∧
      (s.Wants e en memOffs slot ∧ (s.afterWish e en memOffs slot).EachLine chunk
          (s.opt.dynmem? en.dynmem) memOffs ((s.afterWish e en memOffs slot).LinePasses chunk
            (s.opt.dynmem? en.dynmem) memOffs) s.junk (en.checks.getD []) →
        s.Stored s' e en (s.wish e en memOffs slot)) ∧
      (¬ (s.Wants e en memOffs slot ∧ (s.afterWish e en memOffs slot).EachLine chunk
          (s.opt.dynmem? en.dynmem) memOffs ((s.afterWish e en memOffs slot).LinePasses chunk
            (s.opt.dynmem? en.dynmem) memOffs) s.junk (en.checks.getD [])) →
        s.Kept s' e en) := by
  obtain ⟨b, s', hr, hb, hentries, hf⟩ := (passChecks_checked h).1 hrefs
  obtain ⟨c, hc, hstart, hin⟩ := h.cache
  have hc' : en.cache.bind s'.opt.caches.get? = some c :=
    cache_filled (s := s.afterWish e en memOffs slot) hf hc hstart
  have hflag : s'.valSet? e = some false := by
    unfold ProcState.valSet?
    rw [hentries]
    exact valSet?_afterWish h.entry
  have hkept : s.Kept s' e en := ⟨hflag, hc'.trans hc.symm⟩
  have hcmp : (NumType.int en.type.isSigned en.type.size).checkMemVal
      (Value.store en.type.size ((en.vals.old? slot).getD 0) s.buf) (s.wish e en memOffs slot)
        en.check = true ↔ en.type.Compares s.buf (s.wish e en memOffs slot) en.check :=
    (checkMemVal_iff en.check).trans (compares_store (le_refl _) h.int.size_le)
  have hzero : (NumType.int en.type.isSigned en.type.size).eq (s.wish e en memOffs slot) 0 = true ↔
      en.type.Compares (s.wish e en memOffs slot) 0 .eq := checkMemVal_iff .eq
  unfold changeMemVal
  rw [if_neg hw, hr]
  simp only [Run.ok_bind]
  cases b with
  | false =>
    refine ⟨s', rfl, fun hall => ?_, fun _ => hkept⟩
    cases hb.mpr hall.2
  | true =>
    have hlines := hb.mp rfl
    simp only [Bool.true_eq_false, if_false]
    by_cases hown : en.type.Compares s.buf (s.wish e en memOffs slot) en.check
    · rw [if_neg (by rw [hcmp.mpr hown]; decide)]
      by_cases h0 : en.cfgRef.isSome = true ∧ en.type.Compares (s.wish e en memOffs slot) 0 .eq
      · rw [if_pos (by rw [h0.1, hzero.mpr h0.2]; rfl)]
        exact ⟨s', rfl, fun hall => absurd h0.2 (hall.1.2.2 h0.1), fun _ => hkept⟩
      · have h0' : ¬ (en.cfgRef.isSome && (NumType.int en.type.isSigned en.type.size).eq
            (s.wish e en memOffs slot) 0) = true := by
          rwa [Bool.and_eq_true, hzero]
        rw [if_neg h0']
        have hen : (s'.opt.entries[e]?).isSome = true := by
          have : (s'.valSet? e).isSome = true := by rw [hflag]; rfl
          simpa [ProcState.valSet?] using this
        obtain ⟨s'', hs'', hstored⟩ := storeVal_stored h.int (s.wish e en memOffs slot) slot hen
          hc' hin
        refine ⟨s'', hs'', fun _ => ⟨hstored.1, ?_⟩, fun hall => absurd ⟨⟨hw, hown, fun hs hz =>
          h0 ⟨hs, hz⟩⟩, hlines⟩ hall⟩
        rw [hstored.2, hc', hc]
    · rw [if_pos (Bool.eq_false_iff.mpr fun hc => hown (hcmp.mp hc))]
      exact ⟨s', rfl, fun hall => absurd hall.1.2.1 hown, fun _ => hkept⟩

/-- An entry that is only watched is left alone. -/
theorem watch_kept (h : s.FreezeReady chunk e en memOffs slot) (hw : en.dynval = .watch)
    (t : NumType) (readVal value : Value) (cstr : Option (List UInt8)) :
    ∃ s', (handleDynval t e en readVal value cstr memOffs slot (s.afterRead e en slot) >>= fun r =>
        changeMemVal chunk t e en readVal r.1 memOffs slot
          (r.2.modifyVals e (·.setWish slot r.1))) = .ok s' ∧ s.Kept s' e en := by
  have hflag : (s.afterRead e en slot).valSet? e = some false := valSet?_afterRead h.entry
  have hkept : ∀ f : EntryVals → EntryVals, (∀ v, (f v).valSet = v.valSet) →
      s.Kept (((s.afterRead e en slot).modifyVals e f).modifyVals e (·.setWish slot value)) e
        en := by
    intro f hf
    refine ⟨?_, rfl⟩
    rw [modifyVals_modifyVals, valSet?_modifyVals]
    simp only [Function.comp, valSet_setWish, hf]
    exact hflag
  have hid : s.Kept ((s.afterRead e en slot).modifyVals e (·.setWish slot value)) e en := by
    refine ⟨?_, rfl⟩
    rw [valSet?_modifyVals]
    simp only [valSet_setWish]
    exact hflag
  have hread : ∀ addr text, s.Kept ((readCstr e slot addr text (s.afterRead e en slot)).modifyVals e
      (·.setWish slot value)) e en := by
    intro addr text
    unfold readCstr
    split
    · exact hid
    · exact hkept _ fun v => valSet_setCstr
  have hval : ∀ value s', changeMemVal chunk t e en readVal value memOffs slot s' = .ok s' := by
    intro value s'
    unfold changeMemVal
    rw [if_pos hw]
    rfl
  simp only [handleDynval, hw, hval]
  cases cstr with
  | none => exact ⟨_, rfl, hid⟩
  | some text =>
    simp only
    split
    · split
      · exact ⟨_, rfl, hid⟩
      · exact ⟨_, rfl, hread _ _⟩
    · split
      · exact ⟨_, rfl, hread _ _⟩
      · exact ⟨_, rfl, hid⟩

/-- The reference of the wish value is out of range. -/
theorem handleDynval_fault (t : NumType) (readVal value : Value) (cstr : Option (List UInt8))
    (memOffs : Ptr) (f : Value × ProcState → Except Fault ProcState)
    (h : ¬ (en.dynval = .addr → ∀ cfgRef, en.cfgRef = some cfgRef →
      (handleCfgRef (s.afterRead e en slot).opt cfgRef).isOk = true)) :
    ∃ err, (handleDynval t e en readVal value cstr memOffs slot (s.afterRead e en slot) >>= f) =
      .error err := by
  obtain ⟨hd, h⟩ := Classical.not_imp.mp h
  obtain ⟨cfgRef, h⟩ := Classical.not_forall.mp h
  obtain ⟨hr, h⟩ := Classical.not_imp.mp h
  obtain ⟨err, herr⟩ := fault_of_not_ok h
  refine ⟨err, ?_⟩
  simp only [handleDynval, hd, hr, herr]
  rfl

/-- The lines about wide numbers taken apart from the others. -/
theorem freezes_iff : s.Freezes chunk e en memOffs slot ↔ s.Wants e en memOffs slot ∧
    (∀ chk ∈ en.checks.getD [], ¬ chk.Wide → (s.afterWish e en memOffs slot).LineHolds
      chunk (s.opt.dynmem? en.dynmem) memOffs chk) ∧
    ∀ chk ∈ en.checks.getD [], chk.Wide → (s.afterWish e en memOffs slot).LineHolds
      chunk (s.opt.dynmem? en.dynmem) memOffs chk := by
  refine and_congr_right fun _ => ⟨fun hall => ⟨fun c hc _ => hall c hc,
    fun c hc _ => hall c hc⟩, fun hall c hc => ?_⟩
  by_cases hwide : c.Wide
  · exact hall.2 c hc hwide
  · exact hall.1 c hc hwide

theorem afterWish_eq : (s.afterRead e en slot).modifyVals e
    (·.setWish slot (s.wish e en memOffs slot)) = s.afterWish e en memOffs slot := rfl

/-- **`change_memory` decides as it should** if and only if the order of the lines cannot be
seen. -/
theorem decided_iff (h : s.FreezeReady chunk e en memOffs slot) :
    s.Decided chunk e en memOffs slot ↔ s.Clear chunk e en memOffs slot := by
  obtain ⟨cstr, heq⟩ := changeMemory_eq h
  unfold ProcState.Decided
  rw [heq]
  by_cases href : en.dynval = .addr → ∀ cfgRef, en.cfgRef = some cfgRef →
      (handleCfgRef (s.afterRead e en slot).opt cfgRef).isOk = true
  · by_cases hw : en.dynval = .watch
    · obtain ⟨s', hs', hkept⟩ := watch_kept h hw _ _ _ cstr
      rw [hs']
      have hno : ¬ s.Freezes chunk e en memOffs slot := fun hf => hf.1.1 hw
      exact ⟨fun _ => ⟨href, fun hne => absurd hw hne, fun hwants => absurd hw hwants.1⟩,
        fun _ => ⟨s', rfl, fun hf => absurd hf hno, fun _ => hkept⟩⟩
    · rw [handleDynval_wish h hw href, Run.ok_bind]
      dsimp only
      rw [afterWish_eq]
      by_cases hrefs : (s.afterWish e en memOffs slot).RefsInRange chunk
          (s.opt.dynmem? en.dynmem) memOffs s.junk (en.checks.getD [])
      · obtain ⟨s', hs', hstored, hkept⟩ := changeMemVal_decides h hw hrefs
        rw [eachLine_passes_iff fun chk hchk => (h.lines chk hchk).parsed] at hstored hkept
        rw [hs', freezes_iff]
        constructor
        · rintro ⟨_, ⟨⟩, h1, h2⟩
          refine ⟨href, fun _ => hrefs, fun hwants hothers => ⟨fun hwide => ?_, fun hwide => ?_⟩⟩
          · by_contra hn
            exact (h1 ⟨hwants, hothers, hwide⟩).not_kept (hkept fun hall => hn hall.2.2)
          · by_contra hn
            exact (hstored ⟨hwants, hothers, hwide⟩).not_kept (h2 fun hall => hn hall.2.2)
        · rintro ⟨-, -, hnumbers⟩
          exact ⟨s', rfl,
            fun hall => hstored ⟨hall.1, hall.2.1, (hnumbers hall.1 hall.2.1).mp hall.2.2⟩,
            fun hno => hkept fun hall =>
              hno ⟨hall.1, hall.2.1, (hnumbers hall.1 hall.2.1).mpr hall.2.2⟩⟩
      · obtain ⟨err, herr⟩ := (passChecks_checked h).2 hrefs
        have hfault : changeMemVal chunk (.int en.type.isSigned en.type.size) e en
            (Value.store en.type.size ((en.vals.old? slot).getD 0) s.buf)
            (s.wish e en memOffs slot) memOffs slot (s.afterWish e en memOffs slot) =
              .error err := by
          unfold changeMemVal
          rw [if_neg hw, herr]
          rfl
        rw [hfault]
        exact ⟨fun ⟨_, hbad, _⟩ => (nomatch hbad), fun hclear => absurd (hclear.refs hw) hrefs⟩
  · obtain ⟨err, herr⟩ := handleDynval_fault _ _ _ cstr memOffs _ href
    rw [herr]
    exact ⟨fun ⟨_, hbad, _⟩ => (nomatch hbad), fun hclear => absurd hclear.wishRef href⟩

end Decide

/-! ## A number above the buffer -/

/-- `check 0x8 u64 g 0`. -/
def CheckEntry.memory : CheckEntry := { (default : CheckEntry) with
  addr := 8
  type := { (default : VType) with size := 64 }
  check := [.gt, .fin]
  value := [0]
  cache := some ⟨.dynmem 0, 0⟩
  cacheData := 8 }

/-- `check obj u64 e 0`. -/
def CheckEntry.number : CheckEntry := { (default : CheckEntry) with
  checkObjNum := true
  type := { (default : VType) with size := 64 }
  check := [.eq, .fin]
  value := [0] }

def CfgEntry.objNumber : CfgEntry := { (default : CfgEntry) with
  type := { (default : VType) with size := 32 }
  checks := some [.memory, .number]
  dynmem := some 0
  cache := some ⟨.dynmem 0, 0⟩
  cacheData := 0
  vals := ⟨0, 0, none, false, [7], [0], [none]⟩ }

/-- One object, and the eight bytes at its offset 8. -/
def ProcState.oneObject (bytes : List UInt8) : ProcState where
  opt :=
    { entries := [.objNumber]
      dynmems := [{ (default : DynMemEntry) with vMaddr := [0x1000], vMsize := [16] }]
      ptrmems := []
      libs := []
      dumps := []
      caches := Function.update (fun _ => []) (.dynmem 0)
        [⟨0, 0x1000, List.replicate 8 0 ++ bytes, false⟩]
      valOnStack := false
      stackEnd := 0
      codeOffs := 0 }
  target := ⟨fun _ => 0, fun _ _ => true, fun _ _ => true⟩
  buf := 0
  junk := 0
  events := []

theorem oneObject_ready {bytes : List UInt8} (hl : bytes.length = 8) :
    (ProcState.oneObject bytes).FreezeReady 16 0 .objNumber 0x1000 (some 0) where
  entry := rfl
  int := ⟨rfl, by decide⟩
  old := rfl
  value := rfl
  cstr := rfl
  cache := by
    have hstart : (0x1000 : Ptr) ≠ ptrMax := by decide
    have hbytes : CfgEntry.objNumber.type.bytes = 4 := VType.bytes_of_usual (by decide)
    exact ⟨⟨0, 0x1000, List.replicate 8 0 ++ bytes, false⟩, rfl, hstart, by
      rw [hbytes]
      simp [CfgEntry.objNumber, hl]⟩
  lines := by
    have hstart : (0x1000 : Ptr) ≠ ptrMax := by decide
    intro chk hchk
    rcases List.mem_cons.mp hchk with rfl | hchk
    · exact ⟨⟨⟨rfl, by decide⟩, rfl, by decide, by decide, by decide⟩, fun _ h => (nomatch h),
        fun _ _ => ⟨⟨0, 0x1000, List.replicate 8 0 ++ bytes, false⟩, rfl, by simp [hl], by decide,
          fun h => absurd h hstart⟩⟩
    · obtain rfl := List.mem_singleton.mp hchk
      exact ⟨⟨⟨rfl, by decide⟩, rfl, by decide, by decide, by decide⟩, fun _ _ => rfl,
        fun _ h => (nomatch h)⟩
  object := by
    rintro dm ⟨⟩
    decide
  wishRead := fun h => (nomatch h)

/-- The bytes at the offset 8 are a positive number, and the number of the object is 0. -/
theorem oneObject_lines (bytes : List UInt8) (hl : bytes.length = 8)
    (hpos : 0 < (Value.ofBytes bytes).toNat) :
    ∀ chk ∈ CfgEntry.objNumber.checks.getD [],
      ((ProcState.oneObject bytes).afterWish 0 .objNumber 0x1000 (some 0)).LineHolds 16
        ((ProcState.oneObject bytes).opt.dynmem? (some 0)) 0x1000 chk := by
  have htake : bytes.take 8 = bytes := List.take_of_length_le hl.le
  intro chk hchk
  rcases List.mem_cons.mp hchk with rfl | hchk
  · refine ⟨rfl, Value.ofBytes (bytes.take 8), rfl, (.gt, 0), List.mem_singleton.mpr rfl, ?_⟩
    rw [htake]
    exact Int.ofNat_lt.mpr hpos
  · obtain rfl := List.mem_singleton.mp hchk
    exact ⟨rfl, 0, rfl, (.eq, 0), List.mem_singleton.mpr rfl, rfl⟩

theorem decided_example :
    (ProcState.oneObject [5, 0, 0, 0, 0, 0, 0, 0]).Decided 16 0 .objNumber 0x1000 (some 0) := by
  have hlines := oneObject_lines [5, 0, 0, 0, 0, 0, 0, 0] rfl (by decide)
  refine (decided_iff (oneObject_ready rfl)).mpr ⟨fun h => (nomatch h), fun _ => ?_, fun _ _ => ?_⟩
  · exact fun _ => ⟨fun _ h => (nomatch h), fun _ _ => ⟨fun _ h => (nomatch h), fun _ => trivial⟩⟩
  · refine ⟨fun _ => ?_, fun _ chk hchk _ => hlines chk hchk⟩
    exact ⟨fun hw => (nomatch hw.2.1), fun _ => ⟨rfl, 0, rfl, (.eq, 0), List.mem_singleton.mpr rfl,
      rfl⟩, trivial⟩

/-- The upper half of the buffer is that of the value before: the object 0 does not pass. -/
theorem decided_not : ¬ ∀ (chunk : Nat) (s : ProcState) (e : Nat) (en : CfgEntry) (memOffs : Ptr)
    (slot : Option Nat), s.FreezeReady chunk e en memOffs slot →
      s.Decided chunk e en memOffs slot := by
  intro h
  obtain ⟨s', hs', hstored, -⟩ := h 16 (.oneObject [0, 0, 0, 0, 1, 0, 0, 0]) 0 .objNumber 0x1000
    (some 0) (oneObject_ready rfl)
  have hfreezes : (ProcState.oneObject [0, 0, 0, 0, 1, 0, 0, 0]).Freezes 16 0 .objNumber 0x1000
      (some 0) :=
    ⟨⟨by decide, trivial, fun h => (nomatch h)⟩, oneObject_lines _ rfl (by decide)⟩
  obtain ⟨s'', hs'', hflag⟩ := Run.exists_ok_of_map (f := fun s => s.valSet? 0) (b := some false)
    (show (changeMemory 16 0 .objNumber 0x1000 (some 0)
      (.oneObject [0, 0, 0, 0, 1, 0, 0, 0])).map _ = _ by decide +kernel)
  cases hs'.symm.trans hs''
  cases hflag.symm.trans (hstored hfreezes).1

end UgTrain
