import UgTrain.Activation
import UgTrain.CLib.Bytes
import UgTrain.Passes
import UgTrain.ProcSteps
import UgTrain.WriteBack

/-!
# A cycle without caches

`Direct.step` is what one event of a cycle means when each access goes to the memory of the game: a read
finds what is there, a store writes the wish value. `Direct.replay` does so for all events of a cycle,
one after the other. The pointer that was followed last is where the entries of a pointer section are.

A cycle works on copies instead. `ProcState.Cached base view s`: the caches of the open lists and the
memory of the game together stand for `view`, where a list is open if `base` has an address for it.
Filling a cache, storing in it and writing it back keep this (`fill_cached`, `storeVal_cached`,
`writeCaches_cached`) as long as the caches that are in use at the same time lie apart.
-/

namespace UgTrain

open CLib WriteBack

/-! ## Direct accesses -/

structure Direct where
  mem : Ptr → UInt8
  /-- The pointer that was followed last. -/
  ptr : Ptr

/-- Where the value of an entry is. -/
def Options.addr? (opt : Options) (ptr : Ptr) (e : Nat) (slot : Option Nat) : Option Ptr := do
  let en ← opt.entries[e]?
  if en.ptrmem.isSome then return ptr + en.addr
  match en.dynmem with
  | none => return en.addr
  | some d =>
    let dm ← opt.dynmems[d]?
    let memAddr ← dm.vMaddr[← slot]?
    return memAddr + en.addr

theorem addr?_static {opt : Options} {e : Nat} {en : CfgEntry} {ptr : Ptr} {slot : Option Nat}
    (he : opt.entries[e]? = some en) (hp : en.ptrmem = none) (hd : en.dynmem = none) :
    opt.addr? ptr e slot = some en.addr := by
  simp [Options.addr?, he, hp, hd]

theorem addr?_obj {opt : Options} {e d i : Nat} {en : CfgEntry} {dm : DynMemEntry} {ptr m : Ptr}
    (he : opt.entries[e]? = some en) (hp : en.ptrmem = none) (hd : en.dynmem = some d)
    (hdm : opt.dynmems[d]? = some dm) (hm : dm.vMaddr[i]? = some m) :
    opt.addr? ptr e (some i) = some (m + en.addr) := by
  simp [Options.addr?, he, hp, hd, hdm, hm]

/-- The value that was read for an entry is the one in memory. Text is not read as a value. -/
def Direct.Finds (opt : Options) (d : Direct) (e : Nat) (slot : Option Nat) (buf : Value) : Bool :=
  match opt.entries[e]?, opt.addr? d.ptr e slot with
  | some en, some addr =>
    en.type.isCstr || buf.bytes en.type.bytes = rangeBytes d.mem addr en.type.bytes
  | _, _ => false

/-- An event, directly on the memory of the game. -/
def Direct.step (opt : Options) (d : Direct) : ProcEvent → Option Direct
  | .read e slot buf => if d.Finds opt e slot buf then some d else none
  | .pointer e i buf _ => if d.Finds opt e (some i) buf then some d else none
  | .follow _ _ buf => some { d with ptr := buf }
  | .store e slot value => do
    let en ← opt.entries[e]?
    let t ← en.type.num
    let addr ← opt.addr? d.ptr e slot
    return { d with mem := put d.mem addr (value.bytes (t.width / 8)) }

def Direct.replay (opt : Options) (d : Direct) (evs : List ProcEvent) : Option Direct :=
  evs.foldlM (Direct.step opt) d

theorem replay_append {opt : Options} {d : Direct} {evs evs' : List ProcEvent} :
    d.replay opt (evs ++ evs') = (d.replay opt evs).bind fun d' => d'.replay opt evs' := by
  unfold Direct.replay
  rw [List.foldlM_append]
  rfl

/-! ## Caches -/

def CacheEntry.line (chunk : Nat) (c : CacheEntry) : Line Ptr UInt8 where
  covers := {a | c.start ≠ ptrMax ∧ a ∈ window chunk c.start}
  data := fun a => c.data.getD (a - c.start).toNat 0
  dirty := c.isDirty

/-- The caches of the open lists, as lines. -/
def Caches.lines (chunk : Nat) (base : MemType → Option Ptr) (caches : Caches) (r : CacheRef) :
    Line Ptr UInt8 :=
  match base r.mem, caches.get? r with
  | some _, some c => c.line chunk
  | _, _ => ⟨∅, fun _ => 0, false⟩

/-- A value or a check has the cache. -/
def Options.Uses (opt : Options) (r : CacheRef) : Prop :=
  ∃ en ∈ opt.entries, en.cache = some r ∨ ∃ chk ∈ en.checks.getD [], chk.cache = some r

/-- The lists where the caches of an entry may be. -/
def Options.Houses (opt : Options) (en : CfgEntry) (mem : MemType) : Prop :=
  match en.ptrmem, en.dynmem with
  | some p, _ => mem = .ptrmem p
  | none, some d => mem = .dynmem d
  | none, none => mem ∈ opt.cycleCaches

/-- The caches are in the lists of their entries, and values where their entries say. -/
structure Options.Housed (opt : Options) : Prop where
  entry : ∀ en ∈ opt.entries, en.type.isCstr = false → ∃ r c, en.cache = some r ∧
    opt.Houses en r.mem ∧ opt.caches.get? r = some c ∧ en.cacheData = en.addr - c.offs
  text : ∀ en ∈ opt.entries, en.type.isCstr = true → en.cache = none
  check : ∀ en ∈ opt.entries, ∀ chk ∈ en.checks.getD [], ∀ r, chk.cache = some r →
    opt.Houses en r.mem

/-- **The caches in use lie apart**, when the lists are at the addresses `base`. -/
structure Options.Apart (chunk : Nat) (opt : Options) (base : MemType → Option Ptr) : Prop where
  start : ∀ r c b, opt.Uses r → opt.caches.get? r = some c → base r.mem = some b →
    b + c.offs ≠ ptrMax
  apart : ∀ r r' c c' b b', r ≠ r' → opt.Uses r → opt.Uses r' → opt.caches.get? r = some c →
    opt.caches.get? r' = some c' → base r.mem = some b → base r'.mem = some b' →
    Disjoint (window chunk (b + c.offs)) (window chunk (b' + c'.offs))

/-- Only values, objects and the contents of caches differ. -/
structure Options.Alike (opt opt' : Options) : Prop where
  same : opt.Same opt'
  offs : ∀ mem, (opt'.caches mem).map (·.offs) = (opt.caches mem).map (·.offs)
  addrs : ∀ (d : Nat) (dm : DynMemEntry) (i : Nat) (a : Ptr), opt'.dynmems[d]? = some dm → dm.vMaddr[i]? = some a → a ≠ 0 →
    ∃ dm₀, opt.dynmems[d]? = some dm₀ ∧ dm₀.vMaddr[i]? = some a

/-- **The caches of the open lists stand for `view`**, together with the memory of the game. -/
structure ProcState.Cached (chunk : Nat) (opt : Options) (base : MemType → Option Ptr)
    (view : Ptr → UInt8) (s : ProcState) : Prop where
  alike : opt.Alike s.opt
  place : ∀ r c b, s.opt.caches.get? r = some c → c.start ≠ ptrMax → base r.mem = some b →
    opt.Uses r ∧ c.start = b + c.offs ∧ c.start ≠ 0 ∧ c.data.length = chunk
  dirty : ∀ r c, s.opt.caches.get? r = some c → c.isDirty = true →
    base r.mem ≠ none ∧ c.start ≠ ptrMax
  coherent : Coherent (s.opt.caches.lines chunk base) s.target.mem view
  writable : ∀ addr n, s.target.writeOk addr n = true

/-! ## Values and bytes -/

section Bytes

variable {n : Nat} {type : VType} {data : List UInt8} {cacheData : Ptr} {buf buf' : Value}

theorem bytes_store (hn : n ≤ 8) (old v : Value) : (Value.store (8 * n) old v).bytes n = v.bytes n := by
  refine List.map_congr_left fun i hi => congrArg UInt8.ofBitVec (BitVec.eq_of_getLsbD_eq fun k hk => ?_)
  have hi := List.mem_range.mp hi
  have h₁ : 8 * i + k < 8 * n := by omega
  have h₂ : 8 * i + k < 64 := by omega
  simp [Value.store, hk, h₁, h₂]

theorem bytes_ofBytes {l : List UInt8} (hl : l.length ≤ 8) : (Value.ofBytes l).bytes l.length = l := by
  induction l with
  | nil => rfl
  | cons b l ih =>
    rw [List.length_cons] at hl
    rw [List.length_cons, Value.bytes, List.range_succ_eq_map, List.map_cons, List.map_map]
    refine congrArg₂ List.cons ?_ (Eq.trans (List.map_congr_left fun i hi => ?_) (ih (by omega)))
    · refine UInt8.toBitVec_inj.mp (BitVec.eq_of_getLsbD_eq fun k hk => ?_)
      simp [Value.ofBytes, hk]
    · have hi := List.mem_range.mp hi
      refine congrArg UInt8.ofBitVec (BitVec.eq_of_getLsbD_eq fun k hk => ?_)
      have h₁ : 8 * (i + 1) + k < 64 := by omega
      have h₂ : ¬ 8 * (i + 1) + k < 8 := by omega
      have h₃ : 8 * (i + 1) + k - 8 = 8 * i + k := by omega
      have h₄ : b.toBitVec.getLsbD (8 * (i + 1) + k) = false := BitVec.getLsbD_of_ge _ _ (by omega)
      have h₅ : 8 * i + k < 64 := by omega
      simp [Value.ofBytes, hk, h₁, h₂, h₃, h₄, BitVec.getLsbD_eq_getElem h₅]

/-- The bytes that `memcpy` takes. -/
theorem copyToBuf_bytes (h : copyToBuf type data cacheData buf = .ok buf') :
    cacheData.toNat + type.bytes ≤ data.length ∧
      buf'.bytes type.bytes = (data.drop cacheData.toNat).take type.bytes := by
  unfold copyToBuf at h
  dsimp only at h
  split at h
  · cases h
  · rename_i hno
    cases h
    have hlen : ((data.drop cacheData.toNat).take type.bytes).length = type.bytes := by
      rw [List.length_take, List.length_drop]
      omega
    refine ⟨by omega, (bytes_store (by omega) _ _).trans ?_⟩
    have := bytes_ofBytes (l := (data.drop cacheData.toNat).take type.bytes) (by omega)
    rwa [hlen] at this

end Bytes

/-! ## Caches as lines -/

section Lines

variable {chunk : Nat} {opt opt' : Options} {base : MemType → Option Ptr} {caches : Caches} {r : CacheRef}
  {c : CacheEntry} {b : Ptr} {mem view : Ptr → UInt8}

theorem lines_open (hb : base r.mem = some b) (hc : caches.get? r = some c) :
    caches.lines chunk base r = c.line chunk := by
  rw [Caches.lines, hb, hc]

theorem lines_closed (hb : base r.mem = none) : (caches.lines chunk base r).covers = ∅ := by
  rw [Caches.lines, hb]

theorem lines_none (hc : caches.get? r = none) : (caches.lines chunk base r).covers = ∅ := by
  rw [Caches.lines, hc]
  split <;> simp_all

theorem lines_modify (hb : base r.mem = some b) (hc : caches.get? r = some c)
    (f : CacheEntry → CacheEntry) : (caches.modify r f).lines chunk base =
      Function.update (caches.lines chunk base) r ((f c).line chunk) := by
  funext r'
  by_cases hr : r' = r
  · subst hr
    rw [Function.update_self]
    exact lines_open hb (by rw [modify_get?, if_pos rfl, hc]; rfl)
  · rw [Function.update_of_ne hr, Caches.lines, Caches.lines, modify_get?, if_neg hr]

theorem line_covers (h : c.start ≠ ptrMax) : (c.line chunk).covers = window chunk c.start := by
  ext a
  exact and_iff_right h

theorem line_covers_none (h : c.start = ptrMax) : (c.line chunk).covers = ∅ := by
  ext a
  exact iff_of_false (fun ha => ha.1 h) fun ha => ha

/-- A line that covers something is a valid cache of an open list. -/
theorem lines_covers {a : Ptr} (ha : a ∈ (caches.lines chunk base r).covers) :
    ∃ b c, base r.mem = some b ∧ caches.get? r = some c ∧ c.start ≠ ptrMax ∧ a ∈ window chunk c.start ∧
      caches.lines chunk base r = c.line chunk := by
  cases hb : base r.mem with
  | none =>
    rw [lines_closed hb] at ha
    exact ha.elim
  | some b =>
    cases hc : caches.get? r with
    | none =>
      rw [lines_none hc] at ha
      exact ha.elim
    | some c =>
      rw [lines_open hb hc] at ha
      exact ⟨b, c, rfl, rfl, ha.1, ha.2, lines_open hb hc⟩

theorem Options.Alike.cache (h : opt.Alike opt') (hc : opt'.caches.get? r = some c) :
    ∃ c₀, opt.caches.get? r = some c₀ ∧ c₀.offs = c.offs := by
  have := congrArg (·[r.idx]?) (h.offs r.mem)
  simp only [List.getElem?_map] at this
  rw [Caches.get?] at hc
  rw [hc] at this
  obtain ⟨c₀, hc₀, heq⟩ := Option.map_eq_some_iff.mp this.symm
  exact ⟨c₀, hc₀, heq⟩

end Lines

/-! ## Operations on caches -/

section Operations

variable {chunk : Nat} {opt : Options} {base : MemType → Option Ptr} {s s' : ProcState} {r r' : CacheRef}
  {c : CacheEntry} {b : Ptr} {view view' : Ptr → UInt8} {mem : MemType}

/-- The cache can be stored into. -/
def Caches.Loaded (caches : Caches) (r : CacheRef) : Prop :=
  ∃ c, caches.get? r = some c ∧ c.start ≠ ptrMax

/-- Where only values and objects change. -/
theorem ProcState.Cached.of_values (h : s.Cached chunk opt base view)
    (hc : s'.opt.caches = s.opt.caches) (ht : s'.target = s.target) (hs : opt.Alike s'.opt) :
    s'.Cached chunk opt base view :=
  ⟨hs, by rw [hc]; exact h.place, by rw [hc]; exact h.dirty, by rw [hc, ht]; exact h.coherent,
    by rw [ht]; exact h.writable⟩

/-- The caches have the same places. -/
theorem Options.Alike.withCaches (h : opt.Alike s.opt) {caches : Caches}
    (ho : ∀ mem, (caches mem).map (·.offs) = (s.opt.caches mem).map (·.offs)) :
    opt.Alike (s.withCaches caches).opt :=
  ⟨h.same.trans ⟨rfl, rfl, rfl, rfl, rfl⟩, fun mem => (ho mem).trans (h.offs mem), h.addrs⟩

theorem modify_offs {caches : Caches} {f : CacheEntry → CacheEntry} (hc : caches.get? r = some c)
    (hf : (f c).offs = c.offs) (mem : MemType) :
    ((caches.modify r f) mem).map (·.offs) = (caches mem).map (·.offs) := by
  refine List.ext_getElem? fun i => ?_
  have hget : ((caches.modify r f) mem)[i]? = (caches.modify r f).get? ⟨mem, i⟩ := rfl
  have hget' : (caches mem)[i]? = caches.get? ⟨mem, i⟩ := rfl
  rw [List.getElem?_map, List.getElem?_map, hget, hget', modify_get?]
  split
  · rename_i hr
    rw [hr, hc]
    exact congrArg some hf
  · rfl

/-- Another cache in use is apart. -/
theorem ProcState.Cached.disjoint (h : s.Cached chunk opt base view) (hA : opt.Apart chunk base)
    (hc : s.opt.caches.get? r = some c) (hb : base r.mem = some b) (hu : opt.Uses r) (hne : r' ≠ r) :
    Disjoint (window chunk (b + c.offs)) (s.opt.caches.lines chunk base r').covers := by
  obtain ⟨c₀, hc₀, heq⟩ := h.alike.cache hc
  refine Set.disjoint_left.mpr fun a ha ha' => ?_
  obtain ⟨b', c', hb', hc', hv', hw', -⟩ := lines_covers ha'
  obtain ⟨hu', hstart', -, -⟩ := h.place r' c' b' hc' hv' hb'
  obtain ⟨c₀', hc₀', heq'⟩ := h.alike.cache hc'
  rw [hstart'] at hw'
  have := hA.apart r r' c₀ c₀' b b' hne.symm hu hu' hc₀ hc₀' hb hb'
  rw [heq, heq'] at this
  exact Set.disjoint_left.mp this ha hw'

/-- **A cache is changed**, and stays at its place. -/
theorem ProcState.Cached.modifyCache (h : s.Cached chunk opt base view)
    (hc : s.opt.caches.get? r = some c) (hb : base r.mem = some b) (hu : opt.Uses r)
    (hA : opt.Apart chunk base) {f : CacheEntry → CacheEntry} (hoffs : (f c).offs = c.offs)
    (hstart : (f c).start = b + c.offs) (h0 : (f c).start ≠ 0) (hlen : (f c).data.length = chunk)
    (hcoh : Coherent (Function.update (s.opt.caches.lines chunk base) r ((f c).line chunk)) s.target.mem
      view') : (s.modifyCache r f).Cached chunk opt base view' := by
  have hget : ∀ r', (s.modifyCache r f).opt.caches.get? r' =
      if r' = r then some (f c) else s.opt.caches.get? r' := by
    intro r'
    refine modify_get?.trans ?_
    rw [hc]
    rfl
  obtain ⟨c₀, hc₀, heq⟩ := h.alike.cache hc
  have hvalid : (f c).start ≠ ptrMax := by
    rw [hstart, ← heq]
    exact hA.start r c₀ b hu hc₀ hb
  refine ⟨h.alike.withCaches (modify_offs hc hoffs), fun r' c' b' hc' hv' hb' => ?_,
    fun r' c' hc' hd => ?_, ?_, h.writable⟩
  · rw [hget] at hc'
    split at hc'
    · rename_i hr
      subst hr
      cases hc'
      cases hb.symm.trans hb'
      exact ⟨hu, by rw [hstart, hoffs], h0, hlen⟩
    · exact h.place r' c' b' hc' hv' hb'
  · rw [hget] at hc'
    split at hc'
    · rename_i hr
      subst hr
      cases hc'
      exact ⟨by rw [hb]; exact Option.some_ne_none b, hvalid⟩
    · exact h.dirty r' c' hc' hd
  · show Coherent ((s.opt.caches.modify r f).lines chunk base) s.target.mem view'
    rw [lines_modify hb hc]
    exact hcoh

/-- The bytes of a valid cache. -/
theorem ProcState.Cached.bytes (h : s.Cached chunk opt base view) (hch : chunk ≤ 2 ^ 64)
    (hc : s.opt.caches.get? r = some c) (hv : c.start ≠ ptrMax) (hb : base r.mem = some b) {o : Ptr}
    {n : Nat} (ho : o.toNat + n ≤ chunk) :
    (c.data.drop o.toNat).take n = rangeBytes view (b + c.offs + o) n := by
  obtain ⟨-, hstart, -, hlen⟩ := h.place r c b hc hv hb
  have hl : s.opt.caches.lines chunk base r = c.line chunk := lines_open hb hc
  refine List.ext_getElem (by simp [rangeBytes, hlen]; omega) fun i hi hi' => ?_
  have hin : i < n := by
    rw [List.length_take] at hi
    omega
  have ha : b + c.offs + o + BitVec.ofNat 64 i ∈ window n (c.start + o) := by
    show (b + c.offs + o + BitVec.ofNat 64 i - (c.start + o)).toNat < n
    rw [hstart, add_sub_cancel_left, BitVec.toNat_ofNat]
    exact lt_of_le_of_lt (Nat.mod_le _ _) hin
  obtain ⟨htoNat, hmem⟩ := mem_window_add rfl ho hch ha
  have hsub : (b + c.offs + o + BitVec.ofNat 64 i - (c.start + o)).toNat = i := by
    rw [hstart, add_sub_cancel_left, BitVec.toNat_ofNat, Nat.mod_eq_of_lt (by omega)]
  have hdata := h.coherent.data r (b + c.offs + o + BitVec.ofNat 64 i) (by
    rw [hl, line_covers hv]
    exact hmem)
  rw [hl] at hdata
  have hlt : o.toNat + i < c.data.length := by omega
  have hd : (c.line chunk).data (b + c.offs + o + BitVec.ofNat 64 i) = c.data[o.toNat + i] := by
    show c.data.getD _ 0 = _
    rw [htoNat, hsub, List.getD_eq_getElem?_getD, List.getElem?_eq_getElem hlt]
    rfl
  rw [List.getElem_take, List.getElem_drop, ← hd, hdata]
  simp [rangeBytes]

/-- **Filling a cache.** The value comes from what is seen at the place of the item. -/
theorem fill_cached (hA : opt.Apart chunk base) (hch : chunk ≤ 2 ^ 64) (h : s.Cached chunk opt base view)
    {type : VType} {cacheData : Ptr} {buf : Value} {v : Option Value} (hb : base r.mem = some b)
    (hu : opt.Uses r) (hcstr : type.isCstr = false)
    (hf : fillCacheAndBuf chunk type (some r) cacheData b buf s = .ok (v, s')) :
    s'.Cached chunk opt base view ∧ s'.events = s.events ∧
      (∀ r', s.opt.caches.Loaded r' → s'.opt.caches.Loaded r') ∧
      ∀ buf', v = some buf' → s'.opt.caches.Loaded r ∧ ∀ c, opt.caches.get? r = some c →
        buf'.bytes type.bytes = rangeBytes view (b + c.offs + cacheData) type.bytes := by
  unfold fillCacheAndBuf at hf
  simp only [hcstr, Bool.false_eq_true, if_false, Option.bind_some] at hf
  cases hc : s.opt.caches.get? r with
  | none =>
    rw [hc] at hf
    cases hf
  | some c =>
    simp only [hc, Option.map_some] at hf
    obtain ⟨c₀, hc₀, heq⟩ := h.alike.cache hc
    -- What is copied from a valid cache.
    have hcopy : ∀ {s₁ : ProcState} {c₁ : CacheEntry} {buf' : Value},
        s₁.Cached chunk opt base view → s₁.opt.caches.get? r = some c₁ → c₁.start ≠ ptrMax →
        copyToBuf type c₁.data cacheData buf = .ok buf' → s₁.opt.caches.Loaded r ∧
          ∀ c, opt.caches.get? r = some c →
            buf'.bytes type.bytes = rangeBytes view (b + c.offs + cacheData) type.bytes := by
      intro s₁ c₁ buf' h₁ hc₁ hv₁ hbuf
      refine ⟨⟨c₁, hc₁, hv₁⟩, fun c' hc' => ?_⟩
      obtain ⟨c₂, hc₂, heq₂⟩ := h₁.alike.cache hc₁
      cases hc₂.symm.trans hc'
      obtain ⟨hin, hbytes⟩ := copyToBuf_bytes hbuf
      obtain ⟨-, -, -, hlen⟩ := h₁.place r c₁ b hc₁ hv₁ hb
      rw [hbytes, heq₂]
      exact h₁.bytes hch hc₁ hv₁ hb (by omega)
    split at hf
    · rename_i hstart
      cases hread : s.target.memread (b + c.offs) chunk with
      | none =>
        rw [hread] at hf
        cases hf
        exact ⟨h, rfl, fun _ hl => hl, fun _ hv => by cases hv⟩
      | some data =>
        rw [hread] at hf
        obtain ⟨buf', hbuf, hf⟩ := Run.bind_eq_ok.mp hf
        cases hf
        have hdata : data = rangeBytes s.target.mem (b + c.offs) chunk ∧ b + c.offs ≠ 0 := by
          unfold Target.memread at hread
          split at hread
          · cases hread
          · rename_i hno
            cases hread
            exact ⟨rfl, fun h0 => hno (.inl h0)⟩
        have hlen : data.length = chunk := by
          rw [hdata.1]
          simp [rangeBytes]
        have hvalid : b + c.offs ≠ ptrMax := by
          rw [← heq]
          exact hA.start r c₀ b hu hc₀ hb
        have hdis : ∀ r', r' ≠ r →
            Disjoint (window chunk (b + c.offs)) (s.opt.caches.lines chunk base r').covers :=
          fun r' hne => h.disjoint hA hc hb hu hne
        have hcov : ((⟨c.offs, b + c.offs, data, c.isDirty⟩ : CacheEntry).line chunk).covers =
            window chunk (b + c.offs) := line_covers hvalid
        have hs' : (s.modifyCache r fun c => { c with start := b + c.offs, data := data }).Cached chunk opt
            base view := by
          refine h.modifyCache hc hb hu hA rfl rfl hdata.2 hlen (h.coherent.fill ?_ ?_ ?_)
          · rw [lines_open hb hc]
            exact line_covers_none hstart
          · intro a ha
            rw [show (CacheEntry.line chunk { c with start := b + c.offs, data := data }).covers = _ from
              hcov] at ha
            show data.getD _ 0 = _
            rw [hdata.1]
            exact getD_rangeBytes ha 0
          · intro r' hne _
            rw [show (CacheEntry.line chunk { c with start := b + c.offs, data := data }).covers = _ from
              hcov]
            exact hdis r' hne
        have hget : (s.modifyCache r fun c => { c with start := b + c.offs, data := data }).opt.caches.get?
            r = some { c with start := b + c.offs, data := data } := by
          refine modify_get?.trans ?_
          rw [if_pos rfl, hc]
          rfl
        refine ⟨hs', rfl, fun r' hl => ?_, fun buf'' hv => ?_⟩
        · obtain ⟨c', hc', hv'⟩ := hl
          by_cases hr : r' = r
          · subst hr
            exact ⟨_, hget, hvalid⟩
          · refine ⟨c', modify_get?.trans ?_, hv'⟩
            rw [if_neg hr]
            exact hc'
        · cases hv
          exact hcopy hs' hget hvalid hbuf
    · rename_i hv
      obtain ⟨buf', hbuf, hf⟩ := Run.bind_eq_ok.mp hf
      cases hf
      refine ⟨h, rfl, fun _ hl => hl, fun buf'' hv' => ?_⟩
      cases hv'
      exact hcopy h hc hv hbuf

/-- **A store** in a valid cache is a write at the place of the item. -/
theorem storeVal_cached (hA : opt.Apart chunk base) (hch : chunk ≤ 2 ^ 64)
    (h : s.Cached chunk opt base view) {t : NumType} {e : Nat} {en : CfgEntry} {value : Value}
    {slot : Option Nat} (hr : en.cache = some r) (hb : base r.mem = some b) (hu : opt.Uses r)
    (hl : s.opt.caches.Loaded r) (hs : storeVal t e en value slot s = .ok s') :
    ∃ c, opt.caches.get? r = some c ∧ s'.events = s.events ++ [.store e slot value] ∧
      s'.Cached chunk opt base
        (put view (b + c.offs + en.cacheData) (value.bytes (t.width / 8))) := by
  obtain ⟨c, hc, hv⟩ := hl
  obtain ⟨c₀, hc₀, heq⟩ := h.alike.cache hc
  obtain ⟨-, hstart, h0, hlen⟩ := h.place r c b hc hv hb
  unfold storeVal at hs
  simp only [hr, Option.bind_some, hc, Option.map_some] at hs
  split at hs
  · cases hs
  · rename_i hin
    cases hs
    refine ⟨c₀, hc₀, rfl, ?_⟩
    have hwin : en.cacheData.toNat + t.width / 8 ≤ chunk := by omega
    have hl : s.opt.caches.lines chunk base r = c.line chunk := lines_open hb hc
    have hcov : (s.opt.caches.lines chunk base r).covers = window chunk (b + c.offs) := by
      rw [hl, line_covers hv, hstart]
    have hpart : ∀ {a}, a ∈ window (value.bytes (t.width / 8)).length (b + c.offs + en.cacheData) →
        (a - (b + c.offs)).toNat = en.cacheData.toNat + (a - (b + c.offs + en.cacheData)).toNat ∧
          a ∈ window chunk (b + c.offs) := by
      intro a ha
      rw [length_bytes] at ha
      exact mem_window_add rfl hwin hch ha
    have hsplice := getElem?_splice (length_bytes (t.width / 8) value)
      (show en.cacheData.toNat + t.width / 8 ≤ c.data.length by omega)
    rw [heq]
    have hmod : (s.modifyCache r fun c => { c with
        data := c.data.take en.cacheData.toNat ++ value.bytes (t.width / 8) ++
          c.data.drop (en.cacheData.toNat + t.width / 8)
        isDirty := true }).Cached chunk opt base
          (put view (b + c.offs + en.cacheData) (value.bytes (t.width / 8))) := by
      refine h.modifyCache hc hb hu hA rfl hstart h0 ?_ (h.coherent.store
        (S := window (value.bytes (t.width / 8)).length (b + c.offs + en.cacheData)) ?_ ?_ rfl ?_ ?_ ?_ ?_)
      · rw [List.length_append, List.length_append, length_bytes, List.length_take, List.length_drop]
        omega
      · intro a ha
        rw [hcov]
        exact (hpart ha).2
      · rw [hl]
        rfl
      · intro a ha hno
        rw [hl]
        show List.getD _ (a - c.start).toNat 0 = c.data.getD (a - c.start).toNat 0
        rw [List.getD_eq_getElem?_getD, hsplice, hstart, if_neg fun hin => hno ?_,
          List.getD_eq_getElem?_getD]
        rw [length_bytes]
        exact mem_window_of_add hin.1 hin.2
      · intro a ha
        obtain ⟨heq, -⟩ := hpart ha
        have hlt : (a - (b + c.offs + en.cacheData)).toNat < (value.bytes (t.width / 8)).length := ha
        rw [length_bytes] at hlt
        show List.getD _ (a - c.start).toNat 0 = _
        rw [put_of_mem ha 0, List.getD_eq_getElem?_getD, List.getD_eq_getElem?_getD, hsplice, hstart,
          if_pos ⟨by omega, by omega⟩, heq, Nat.add_sub_cancel_left]
      · exact fun a ha => put_of_not_mem ha
      · intro r' hne
        exact (h.disjoint hA hc hb hu hne).mono_left fun a ha => (hpart ha).2
    refine hmod.of_values rfl rfl ⟨?_, hmod.alike.offs, hmod.alike.addrs⟩
    exact hmod.alike.same.trans (same_modifyVals fun _ _ => rfl)

theorem get?_map_mem {caches : Caches} {f : CacheEntry → CacheEntry} (r : CacheRef) :
    Caches.get? (Function.update caches mem ((caches mem).map f)) r =
      if r.mem = mem then (caches.get? r).map f else caches.get? r := by
  by_cases hr : r.mem = mem
  · rw [if_pos hr, Caches.get?, Caches.get?, hr, Function.update_self, List.getElem?_map]
  · rw [if_neg hr, Caches.get?, Caches.get?, Function.update_of_ne hr]

theorem map_offs {caches : Caches} {f : CacheEntry → CacheEntry} (hf : ∀ c, (f c).offs = c.offs)
    (mem' : MemType) : (Function.update caches mem ((caches mem).map f) mem').map (·.offs) =
      (caches mem').map (·.offs) := by
  by_cases hm : mem' = mem
  · subst hm
    rw [Function.update_self, List.map_map]
    exact List.map_congr_left fun c _ => hf c
  · rw [Function.update_of_ne hm]

/-- **A list is opened**: its caches are not valid. -/
theorem invalidate_cached (h : s.Cached chunk opt base view) (hm : base mem = none) (b : Option Ptr) :
    (s.invalidateCaches mem).Cached chunk opt (Function.update base mem b) view := by
  have hget : ∀ r, (s.invalidateCaches mem).opt.caches.get? r = if r.mem = mem then
      (s.opt.caches.get? r).map fun c => { c with start := ptrMax } else s.opt.caches.get? r :=
    fun r => get?_map_mem r
  refine ⟨h.alike.withCaches (map_offs fun _ => rfl), fun r c b' hc hv hb => ?_, fun r c hc hd => ?_,
    h.coherent.close fun r => ?_, h.writable⟩
  · rw [hget] at hc
    split at hc
    · obtain ⟨c', -, rfl⟩ := Option.map_eq_some_iff.mp hc
      exact absurd rfl hv
    · rename_i hr
      rw [Function.update_of_ne hr] at hb
      exact h.place r c b' hc hv hb
  · rw [hget] at hc
    split at hc
    · rename_i hr
      obtain ⟨c', hc', rfl⟩ := Option.map_eq_some_iff.mp hc
      exact absurd (hr ▸ hm) (h.dirty r c' hc' hd).1
    · rename_i hr
      rw [Function.update_of_ne hr]
      exact h.dirty r c hc hd
  · by_cases hr : r.mem = mem
    · have hold : (s.opt.caches.lines chunk base r).covers = ∅ := lines_closed (by rw [hr, hm])
      refine .inr ⟨Set.eq_empty_iff_forall_notMem.mpr fun a ha => ?_, fun _ => hold⟩
      obtain ⟨b', c, -, hc, hv, -, -⟩ := lines_covers ha
      rw [hget, if_pos hr] at hc
      obtain ⟨c', -, rfl⟩ := Option.map_eq_some_iff.mp hc
      exact hv rfl
    · refine .inl ?_
      rw [Caches.lines, Caches.lines, Function.update_of_ne hr, hget, if_neg hr]

/-- Dirty caches are written one after the other. Where they overlap, they have the same bytes. -/
theorem foldl_memwrite {cs : List CacheEntry} {t : Target} (hw : ∀ addr n, t.writeOk addr n = true)
    (hcs : ∀ c ∈ cs, c.start ≠ 0 ∧ c.data.length = chunk ∧
      ∀ a ∈ window chunk c.start, c.data.getD (a - c.start).toNat 0 = view a) :
    (∀ a, (cs.foldl (fun t c => t.memwrite c.start c.data) t).mem a = view a ∨
        (cs.foldl (fun t c => t.memwrite c.start c.data) t).mem a = t.mem a) ∧
      (∀ c ∈ cs, ∀ a ∈ window chunk c.start,
        (cs.foldl (fun t c => t.memwrite c.start c.data) t).mem a = view a) ∧
      (cs.foldl (fun t c => t.memwrite c.start c.data) t).writeOk = t.writeOk := by
  induction cs generalizing t with
  | nil => exact ⟨fun _ => .inr rfl, fun _ hc => absurd hc List.not_mem_nil, rfl⟩
  | cons c cs ih =>
    obtain ⟨⟨h0, hlen, hview⟩, hcs⟩ := List.forall_mem_cons.mp hcs
    have ht : t.memwrite c.start c.data = { t with mem := put t.mem c.start c.data } :=
      if_neg fun hno => hno.elim h0 fun hno => by rw [hw] at hno; cases hno
    have hin : ∀ a ∈ window chunk c.start, put t.mem c.start c.data a = view a := by
      intro a ha
      rw [put_of_mem (by rw [hlen]; exact ha) 0]
      exact hview a ha
    obtain ⟨hmem, hback, hok⟩ := ih (t := t.memwrite c.start c.data) (by rw [ht]; exact hw) hcs
    simp only [List.foldl_cons]
    refine ⟨fun a => ?_, fun c' hc' a ha => ?_, by rw [hok, ht]⟩
    · rcases hmem a with heq | heq
      · exact .inl heq
      · rw [heq, ht]
        by_cases ha : a ∈ window chunk c.start
        · exact .inl (hin a ha)
        · exact .inr (put_of_not_mem (by rw [hlen]; exact ha))
    · rcases List.mem_cons.mp hc' with rfl | hc'
      · rcases hmem a with heq | heq
        · exact heq
        · rw [heq, ht]
          exact hin a ha
      · exact hback c' hc' a ha

/-- **A list is written back** and closed. -/
theorem writeCaches_cached (h : s.Cached chunk opt base view) {b : Ptr} (hm : base mem = some b) :
    (s.writeCaches mem).Cached chunk opt (Function.update base mem none) view := by
  have hget : ∀ r, (s.writeCaches mem).opt.caches.get? r = if r.mem = mem then
      (s.opt.caches.get? r).map fun c => { c with isDirty := false } else s.opt.caches.get? r :=
    fun r => get?_map_mem r
  -- The caches of the list.
  have hmem : ∀ c ∈ (s.opt.caches mem).filter (·.isDirty), ∃ r, r.mem = mem ∧
      s.opt.caches.get? r = some c ∧ c.isDirty = true := by
    intro c hc
    obtain ⟨hc, hd⟩ := List.mem_filter.mp hc
    obtain ⟨i, hi⟩ := List.mem_iff_getElem?.mp hc
    exact ⟨⟨mem, i⟩, rfl, hi, hd⟩
  have hcs : ∀ c ∈ (s.opt.caches mem).filter (·.isDirty), c.start ≠ 0 ∧ c.data.length = chunk ∧
      ∀ a ∈ window chunk c.start, c.data.getD (a - c.start).toNat 0 = view a := by
    intro c hc
    obtain ⟨r, rfl, hr, hd⟩ := hmem c hc
    have hv := (h.dirty r c hr hd).2
    obtain ⟨-, -, h0, hlen⟩ := h.place r c b hr hv hm
    refine ⟨h0, hlen, fun a ha => ?_⟩
    have hdata := h.coherent.data r a
    rw [lines_open hm hr, line_covers hv] at hdata
    exact hdata ha
  obtain ⟨hold, hback, hok⟩ := foldl_memwrite h.writable hcs
  refine ⟨h.alike.withCaches (map_offs fun _ => rfl), fun r c b' hc hv hb => ?_, fun r c hc hd => ?_, ?_,
    fun addr n => (congrFun (congrFun hok addr) n).trans (h.writable addr n)⟩
  · by_cases hr : r.mem = mem
    · rw [hr, Function.update_self] at hb
      cases hb
    · rw [Function.update_of_ne hr] at hb
      rw [hget, if_neg hr] at hc
      exact h.place r c b' hc hv hb
  · rw [hget] at hc
    split at hc
    · obtain ⟨c', -, rfl⟩ := Option.map_eq_some_iff.mp hc
      cases hd
    · rename_i hr
      rw [Function.update_of_ne hr]
      exact h.dirty r c hc hd
  · have hline : ∀ r, ((s.writeCaches mem).opt.caches.lines chunk base r).covers =
        (s.opt.caches.lines chunk base r).covers ∧
        ((s.writeCaches mem).opt.caches.lines chunk base r).data =
          (s.opt.caches.lines chunk base r).data ∧
        (r.mem = mem → ((s.writeCaches mem).opt.caches.lines chunk base r).dirty = false) ∧
        (r.mem ≠ mem → (s.writeCaches mem).opt.caches.lines chunk base r =
          s.opt.caches.lines chunk base r) := by
      intro r
      by_cases hr : r.mem = mem
      · rw [Caches.lines, Caches.lines, hget, if_pos hr, hr, hm]
        cases s.opt.caches.get? r with
        | none => exact ⟨rfl, rfl, fun _ => rfl, fun hne => absurd rfl hne⟩
        | some c => exact ⟨rfl, rfl, fun _ => rfl, fun hne => absurd rfl hne⟩
      · have heq : (s.writeCaches mem).opt.caches.lines chunk base r =
            s.opt.caches.lines chunk base r := by
          rw [Caches.lines, Caches.lines, hget, if_neg hr]
        rw [heq]
        exact ⟨rfl, rfl, fun h => absurd h hr, fun _ => rfl⟩
    have hwritten : Coherent ((s.writeCaches mem).opt.caches.lines chunk base)
        (s.writeCaches mem).target.mem view := by
      refine h.coherent.writeBack hold (fun r => ⟨(hline r).1, (hline r).2.1⟩) fun r hd => ?_
      by_cases hr : r.mem = mem
      · refine .inr fun a ha => ?_
        obtain ⟨b', c, hb', hc, hv, hw, hl⟩ := lines_covers ha
        rw [hl] at hd
        refine hback c (List.mem_filter.mpr ⟨?_, hd⟩) a hw
        rw [← hr]
        exact List.mem_of_getElem? hc
      · refine .inl ?_
        rw [(hline r).2.2.2 hr]
        exact hd
    refine hwritten.close fun r => ?_
    by_cases hr : r.mem = mem
    · refine .inr ⟨lines_closed (by rw [hr, Function.update_self]), fun hd => ?_⟩
      rw [(hline r).2.2.1 hr] at hd
      cases hd
    · refine .inl ?_
      rw [Caches.lines, Caches.lines, Function.update_of_ne hr]

end Operations

end UgTrain
