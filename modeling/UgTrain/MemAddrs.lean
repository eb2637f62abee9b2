import UgTrain.HackMsg
import UgTrain.Pointwise
import UgTrain.Run

/-!
# The addresses of the objects (`linuxhooking/libmemhack.c`)

libmemhack keeps the addresses of the live objects of an entry in an array that ends with
`addrInval`: `storeMemAddr` puts an address into the first slot that is not in use, `preprocessFree`
makes a slot reusable and reports the free.

* `Live` is what the array stands for: the addresses that are tracked, and the largest number of
  them so far. `MemAddrs.Refines` connects both.
* `junk` is what a slot of new memory holds. Allocations succeed; the locks do not matter for one
  call after the other.
* `max_obj` is a `u32`: the array of 2^31 objects cannot grow (`run_live_iff`).
-/

namespace UgTrain

open CLib

/-- `ADDR_INVAL`: a slot that was never used, and the end of the array. 0 is a slot to be used
again. -/
def addrInval : Ptr := 1

/-- The part of `struct cfg` that is determined later. -/
structure MemAddrs where
  memAddrs : List Ptr
  maxObj : U32
  /-- Lowest index for insertion. -/
  insertIdx : U32
  deriving DecidableEq, Repr

/-- Space for one object. -/
def MemAddrs.init : MemAddrs := ⟨[addrInval, addrInval], 1, 0⟩

/-! ## The code -/

/-- `realloc` to `n` slots. -/
def realloc (junk : Nat → Ptr) (n : Nat) (l : List Ptr) : List Ptr :=
  (List.range n).map fun j => l.getD j (junk j)

/-- The size doubling allocator. -/
def MemAddrs.grow (junk : Nat → Ptr) (cfg : MemAddrs) : MemAddrs :=
  let maxObj := cfg.maxObj <<< 1
  { cfg with
    memAddrs := (realloc junk (maxObj + 1).toNat cfg.memAddrs).mapIdx fun j a =>
      if (cfg.maxObj + 1).toNat ≤ j ∧ j ≤ maxObj.toNat then addrInval else a
    maxObj := maxObj }

/-- The loop over `n` slots from `j` on: the first one that is not in use. -/
def freeSlot (l : List Ptr) (j : Nat) : Nat → Except Fault (Option Nat)
  | 0 => .ok none
  | n + 1 =>
    match l[j]? with
    | none => .error .outOfBounds
    | some a => if a ≤ addrInval then .ok (some j) else freeSlot l (j + 1) n

/-- `store_mem_addr`. -/
def storeMemAddr (junk : Nat → Ptr) (memAddr : Ptr) (cfg : MemAddrs) : Except Fault MemAddrs := do
  match cfg.memAddrs[(cfg.maxObj - 1).toNat]? with
  | none => throw .outOfBounds
  | some last =>
    let cfg := if last ≠ addrInval then cfg.grow junk else cfg
    match ← freeSlot cfg.memAddrs cfg.insertIdx.toNat (cfg.maxObj.toNat - cfg.insertIdx.toNat) with
    | none => return cfg
    | some j =>
      return { cfg with memAddrs := cfg.memAddrs.set j memAddr, insertIdx := BitVec.ofNat 32 j }

/-- The loop of `preprocess_free`: the position of the address before the end of the array. -/
def findAddr (memAddr : Ptr) : List Ptr → Except Fault (Option Nat)
  | [] => .error .outOfBounds
  | a :: l =>
    if a = addrInval then .ok none
    else if a = memAddr then .ok (some 0)
    else do return (← findAddr memAddr l).map (· + 1)

/-- The slot `j` can be used again. -/
def MemAddrs.clear (j : Nat) (cfg : MemAddrs) : MemAddrs :=
  { cfg with
    memAddrs := cfg.memAddrs.set j 0
    insertIdx := if j < cfg.insertIdx.toNat then BitVec.ofNat 32 j else cfg.insertIdx }

/-- The loop over the entries: the config, and whether the address was found. -/
def clearAddr (memAddr : Ptr) : List MemAddrs → Except Fault (List MemAddrs × Bool)
  | [] => .ok ([], false)
  | cfg :: config => do
    match ← findAddr memAddr cfg.memAddrs with
    | some j => return (cfg.clear j :: config, true)
    | none =>
      let (config, found) ← clearAddr memAddr config
      return (cfg :: config, found)

/-- `preprocess_free`: the config, and the message. -/
def preprocessFree (memAddr : Ptr) (config : List MemAddrs) :
    Except Fault (List MemAddrs × List HackMsg) := do
  if memAddr = 0 then return (config, [])
  let (config, found) ← clearAddr memAddr config
  return (config, if found then [.free memAddr] else [])

/-! ## Live objects -/

/-- The addresses that are tracked, and the largest number of them so far. -/
structure Live where
  addrs : Multiset Ptr
  peak : Nat
  deriving DecidableEq

def Live.none : Live := ⟨0, 0⟩

def Live.store (a : Ptr) (t : Live) : Live := ⟨a ::ₘ t.addrs, max t.peak (t.addrs.card + 1)⟩

def Live.free (a : Ptr) (t : Live) : Live := { t with addrs := t.addrs.erase a }

/-- The first entry that tracks the address loses one occurrence. -/
def freeLive (a : Ptr) : List Live → List Live
  | [] => []
  | t :: ts => if a ∈ t.addrs then t.free a :: ts else t :: freeLive a ts

def Tracked (a : Ptr) (ts : List Live) : Prop := ∃ t ∈ ts, a ∈ t.addrs

/-- The array of an entry stands for its live objects. -/
structure MemAddrs.Refines (cfg : MemAddrs) (t : Live) : Prop where
  slots : cfg.memAddrs.length = cfg.maxObj.toNat + 1
  last : cfg.memAddrs[cfg.maxObj.toNat]? = some addrInval
  hint : ∀ j < cfg.insertIdx.toNat, ∃ a, cfg.memAddrs[j]? = some a ∧ a ∈ t.addrs
  /-- The first slot that was never used, and all behind it. -/
  used : ∀ j, ∀ a, cfg.memAddrs[j]? = some a → (a = addrInval ↔ t.peak ≤ j)
  addrs : (cfg.memAddrs.filter (addrInval < ·) : Multiset Ptr) = t.addrs

/-- The number of objects is only ever doubled. -/
def MemAddrs.Doubled (cfg : MemAddrs) : Prop := ∃ n, cfg.maxObj.toNat = 2 ^ n

/-! ## The array -/

section Slots

variable {cfg cfg' : MemAddrs} {t : Live} {a memAddr : Ptr} {used l : List Ptr} {k n : Nat}
  {junk : Nat → Ptr}

theorem addrInval_lt_iff : addrInval < a ↔ a ≠ 0 ∧ a ≠ addrInval := by
  have h0 : a ≠ 0 ↔ a.toNat ≠ 0 := BitVec.toNat_ne_iff_ne.symm
  have h1 : a ≠ addrInval ↔ a.toNat ≠ 1 := BitVec.toNat_ne_iff_ne.symm
  rw [h0, h1, BitVec.lt_def]
  have : addrInval.toNat = 1 := rfl
  omega

/-- The array in two parts: the slots that were in use, and the other ones. -/
structure MemAddrs.Split (cfg : MemAddrs) (t : Live) (used : List Ptr) (k : Nat) : Prop where
  eq : cfg.memAddrs = used ++ List.replicate (k + 1) addrInval
  slots : cfg.maxObj.toNat = used.length + k
  valid : ∀ a ∈ used, a ≠ addrInval
  peak : used.length = t.peak
  hint : cfg.insertIdx.toNat ≤ used.length ∧ ∀ a ∈ used.take cfg.insertIdx.toNat, addrInval < a
  addrs : (used.filter (addrInval < ·) : Multiset Ptr) = t.addrs

theorem filter_append_inval : (used ++ List.replicate n addrInval).filter (addrInval < ·) =
    used.filter (addrInval < ·) := by
  rw [List.filter_append, List.filter_replicate_of_neg (by decide), List.append_nil]

theorem MemAddrs.Split.refines (h : cfg.Split t used k) : cfg.Refines t := by
  have hlen : cfg.memAddrs.length = cfg.maxObj.toNat + 1 := by
    rw [h.eq, h.slots, List.length_append, List.length_replicate]
    omega
  refine ⟨hlen, ?_, fun j hj => ?_, fun j a ha => ?_, ?_⟩
  · rw [h.eq, h.slots, List.getElem?_append_right (by omega), List.getElem?_replicate]
    simp
  · obtain ⟨hle, hlt⟩ := h.hint
    have hj' : j < used.length := by omega
    refine ⟨used[j], by rw [h.eq, List.getElem?_append_left hj', List.getElem?_eq_getElem hj'], ?_⟩
    have hval := hlt used[j] (List.mem_take_iff_getElem.mpr ⟨j, by omega, rfl⟩)
    rw [← h.addrs, Multiset.mem_coe, List.mem_filter]
    exact ⟨List.getElem_mem hj', by simpa using hval⟩
  · rw [h.eq] at ha
    rw [← h.peak]
    by_cases hj : j < used.length
    · rw [List.getElem?_append_left hj] at ha
      exact ⟨fun h' => absurd h' (h.valid a (List.mem_of_getElem? ha)), fun h' => absurd hj (by omega)⟩
    · rw [List.getElem?_append_right (by omega), List.getElem?_replicate] at ha
      split at ha
      · exact ⟨fun _ => by omega, fun _ => (Option.some.inj ha).symm⟩
      · cases ha
  · rw [h.eq, filter_append_inval, h.addrs]

theorem MemAddrs.Refines.split (h : cfg.Refines t) : ∃ used k, cfg.Split t used k := by
  obtain ⟨hlen, hlast, hhint, hused, haddrs⟩ := h
  have hpeak : t.peak ≤ cfg.maxObj.toNat := (hused _ _ hlast).mp rfl
  have hdrop : cfg.memAddrs.drop t.peak =
      List.replicate (cfg.maxObj.toNat - t.peak + 1) addrInval := by
    refine List.eq_replicate_iff.mpr ⟨by rw [List.length_drop]; omega, fun a ha => ?_⟩
    obtain ⟨j, hj⟩ := List.mem_iff_getElem?.mp ha
    rw [List.getElem?_drop] at hj
    exact (hused _ a hj).mpr (by omega)
  have heq : cfg.memAddrs = cfg.memAddrs.take t.peak ++
      List.replicate (cfg.maxObj.toNat - t.peak + 1) addrInval := by
    rw [← hdrop, List.take_append_drop]
  have hulen : (cfg.memAddrs.take t.peak).length = t.peak := by
    rw [List.length_take]
    omega
  have hmem : ∀ a ∈ t.addrs, a ≠ addrInval := by
    intro a ha
    rw [← haddrs, Multiset.mem_coe, List.mem_filter] at ha
    exact (addrInval_lt_iff.mp (by simpa using ha.2)).2
  refine ⟨cfg.memAddrs.take t.peak, cfg.maxObj.toNat - t.peak, heq, by omega, fun a ha => ?_, hulen,
    ⟨?_, fun a ha => ?_⟩, ?_⟩
  · obtain ⟨j, hj, rfl⟩ := List.mem_take_iff_getElem.mp ha
    intro h'
    have := (hused j _ (List.getElem?_eq_getElem (by omega))).mp h'
    omega
  · rw [hulen]
    by_contra hlt
    obtain ⟨a, ha, hmem'⟩ := hhint t.peak (by omega)
    exact hmem a hmem' ((hused _ a ha).mpr le_rfl)
  · obtain ⟨j, hj, rfl⟩ := List.mem_take_iff_getElem.mp ha
    rw [List.length_take] at hj
    obtain ⟨a, ha', hmem'⟩ := hhint j (by omega)
    rw [List.getElem_take]
    rw [List.getElem?_eq_getElem (by omega)] at ha'
    cases ha'
    rw [← haddrs, Multiset.mem_coe, List.mem_filter] at hmem'
    simpa using hmem'.2
  · rw [← haddrs, heq, filter_append_inval]
    congr 2
    rw [← heq]

/-! ## Storing -/

/-- The first slot that is not in use. -/
theorem freeSlot_eq {j j' : Nat} (hn : j' < j + n) (hj : j ≤ j')
    (hpre : ∀ i, j ≤ i → i < j' → ∃ a, l[i]? = some a ∧ addrInval < a)
    (hl : l[j']? = some a) (ha : a ≤ addrInval) : freeSlot l j n = .ok (some j') := by
  induction n generalizing j with
  | zero => omega
  | succ n ih =>
    by_cases heq : j = j'
    · subst heq
      simp [freeSlot, hl, ha]
    · obtain ⟨b, hb, hlt⟩ := hpre j le_rfl (by omega)
      unfold freeSlot
      simp only [hb]
      rw [if_neg (BitVec.not_le.mpr hlt)]
      exact ih (by omega) (by omega) fun i hi => hpre i (by omega)

/-- The addresses up to the first one that does not meet `p`. -/
theorem exists_first {p : Ptr → Prop} (h : ¬ ∀ a ∈ l, p a) :
    ∃ pre x post, l = pre ++ x :: post ∧ (∀ a ∈ pre, p a) ∧ ¬ p x := by
  induction l with
  | nil => simp at h
  | cons a l ih =>
    by_cases ha : p a
    · obtain ⟨pre, x, post, rfl, hpre, hx⟩ := ih fun hall => h (List.forall_mem_cons.mpr ⟨ha, hall⟩)
      exact ⟨a :: pre, x, post, rfl, List.forall_mem_cons.mpr ⟨ha, hpre⟩, hx⟩
    · exact ⟨[], a, l, rfl, by simp, ha⟩

theorem grow_split (junk : Nat → Ptr) (h : cfg.Split t used 0) (hmax : cfg.maxObj.toNat < 2 ^ 31) :
    (cfg.grow junk).Split t used used.length ∧ (cfg.grow junk).maxObj.toNat = 2 * used.length := by
  have hslots := h.slots
  have hshift : (cfg.maxObj <<< 1).toNat = 2 * used.length := by
    rw [BitVec.toNat_shiftLeft, Nat.shiftLeft_eq]
    omega
  have hsucc : (cfg.maxObj <<< 1 + 1).toNat = 2 * used.length + 1 := by
    rw [BitVec.toNat_add, hshift]
    show (2 * used.length + 1) % 2 ^ 32 = _
    omega
  have hsucc' : (cfg.maxObj + 1).toNat = used.length + 1 := by
    rw [BitVec.toNat_add]
    show (cfg.maxObj.toNat + 1) % 2 ^ 32 = _
    omega
  refine ⟨⟨?_, ?_, h.valid, h.peak, h.hint, h.addrs⟩, hshift⟩
  · -- The old array with its end, and the new slots.
    refine List.ext_getElem? fun j => ?_
    unfold MemAddrs.grow realloc
    simp only [hshift, hsucc, hsucc', h.eq, List.getElem?_mapIdx, List.getElem?_map]
    by_cases hj : j < 2 * used.length + 1
    · rw [List.getElem?_range hj]
      by_cases hlt : j < used.length
      · rw [List.getElem?_append_left hlt]
        simp [List.getElem?_append_left hlt, List.getElem?_eq_getElem hlt]
        omega
      · rw [List.getElem?_append_right (by omega), List.getElem?_replicate, if_pos (by omega)]
        simp only [Option.map_some, Option.some.injEq, ite_eq_left_iff, not_and]
        intro hnot
        obtain rfl : j = used.length := by omega
        simp
    · rw [List.getElem?_eq_none (by simpa using hj), List.getElem?_eq_none (by simp; omega)]
      rfl
  · show (cfg.maxObj <<< 1).toNat = _
    rw [hshift]
    omega

/-- A store into an array that has a slot left. -/
theorem store_split (h : cfg.Split t used (k + 1)) (ha : addrInval < a) :
    ∃ j used' k', freeSlot cfg.memAddrs cfg.insertIdx.toNat
        (cfg.maxObj.toNat - cfg.insertIdx.toNat) = .ok (some j) ∧
      MemAddrs.Split { cfg with memAddrs := cfg.memAddrs.set j a, insertIdx := BitVec.ofNat 32 j }
        (t.store a) used' k' := by
  obtain ⟨hle, hlt⟩ := h.hint
  have hslots := h.slots
  have hbound := cfg.maxObj.isLt
  have ha' := (addrInval_lt_iff.mp ha).2
  have hcard : t.addrs.card = (used.filter (addrInval < ·)).length := by
    rw [← h.addrs, Multiset.coe_card]
  by_cases hall : ∀ a ∈ used, addrInval < a
  · -- All slots are in use: the first new one.
    have hfilter : used.filter (addrInval < ·) = used :=
      List.filter_eq_self.mpr fun a ha => by simpa using hall a ha
    refine ⟨used.length, used ++ [a], k, freeSlot_eq (a := addrInval) (by omega) hle ?_ ?_
      (BitVec.le_refl _), ?_, ?_, ?_, ?_, ⟨?_, ?_⟩, ?_⟩
    · intro i _ hi
      refine ⟨used[i], ?_, hall _ (List.getElem_mem hi)⟩
      rw [h.eq, List.getElem?_append_left hi, List.getElem?_eq_getElem hi]
    · rw [h.eq, List.getElem?_append_right le_rfl, Nat.sub_self]
      rfl
    · rw [h.eq]
      simp [List.replicate_succ]
    · simp only [List.length_append, List.length_singleton]
      omega
    · intro b hb
      rcases List.mem_append.mp hb with hb | hb
      · exact h.valid b hb
      · exact List.mem_singleton.mp hb ▸ ha'
    · show (used ++ [a]).length = max t.peak (t.addrs.card + 1)
      rw [hcard, hfilter, ← h.peak, List.length_append, List.length_singleton]
      omega
    · simp only [BitVec.toNat_ofNat, List.length_append, List.length_singleton]
      omega
    · intro b hb
      rcases List.mem_append.mp (List.mem_of_mem_take hb) with hb | hb
      · exact hall b hb
      · exact List.mem_singleton.mp hb ▸ ha
    · show ((used ++ [a]).filter (addrInval < ·) : Multiset Ptr) = a ::ₘ t.addrs
      rw [List.filter_append, hfilter, List.filter_cons_of_pos (by simpa using ha), List.filter_nil,
        ← h.addrs, hfilter, ← Multiset.coe_add, add_comm]
      rfl
  · -- A slot to be used again.
    obtain ⟨pre, x, post, rfl, hpre, hx⟩ := exists_first hall
    have hx' : x ≤ addrInval := BitVec.not_lt.mp hx
    have hins : cfg.insertIdx.toNat ≤ pre.length := by
      by_contra hlt'
      refine hx (hlt x (List.mem_take_iff_getElem.mpr ⟨pre.length, ?_, by simp⟩))
      simp only [List.length_append, List.length_cons]
      omega
    simp only [List.length_append, List.length_cons] at hslots
    have hfilter : (pre ++ x :: post).filter (addrInval < ·) = pre ++ post.filter (addrInval < ·) := by
      have hp : pre.filter (addrInval < ·) = pre :=
        List.filter_eq_self.mpr fun a ha => by simpa using hpre a ha
      rw [List.filter_append, List.filter_cons_of_neg (by simpa using hx), hp]
    refine ⟨pre.length, pre ++ a :: post, k + 1, freeSlot_eq (a := x) (by omega) hins ?_ ?_ hx',
      ?_, ?_, ?_, ?_, ⟨?_, ?_⟩, ?_⟩
    · intro i _ hi
      refine ⟨pre[i], ?_, hpre _ (List.getElem_mem hi)⟩
      rw [h.eq, List.append_assoc, List.getElem?_append_left hi, List.getElem?_eq_getElem hi]
    · rw [h.eq, List.append_assoc, List.getElem?_append_right le_rfl, Nat.sub_self]
      rfl
    · rw [h.eq]
      simp
    · simp only [List.length_append, List.length_cons]
      omega
    · intro b hb
      rcases List.mem_append.mp hb with hb | hb
      · exact h.valid b (List.mem_append_left _ hb)
      · rcases List.mem_cons.mp hb with rfl | hb
        · exact ha'
        · exact h.valid b (List.mem_append_right _ (List.mem_cons_of_mem _ hb))
    · show (pre ++ a :: post).length = max t.peak (t.addrs.card + 1)
      have hp := List.length_filter_le (fun b => decide (addrInval < b)) post
      rw [hcard, hfilter, ← h.peak]
      simp only [List.length_append, List.length_cons]
      omega
    · simp only [BitVec.toNat_ofNat, List.length_append, List.length_cons]
      omega
    · intro b hb
      rw [show (BitVec.ofNat 32 pre.length).toNat = pre.length by
        rw [BitVec.toNat_ofNat]; omega, List.take_left'] at hb
      · exact hpre b hb
      · rfl
    · show ((pre ++ a :: post).filter (addrInval < ·) : Multiset Ptr) = a ::ₘ t.addrs
      have hp : pre.filter (addrInval < ·) = pre :=
        List.filter_eq_self.mpr fun a ha => by simpa using hpre a ha
      rw [← h.addrs, hfilter, List.filter_append, List.filter_cons_of_pos (by simpa using ha), hp]
      exact Multiset.coe_eq_coe.mpr List.perm_middle

theorem MemAddrs.Split.last? (h : cfg.Split t used k) (h0 : 0 < cfg.maxObj.toNat) :
    ∃ last, cfg.memAddrs[(cfg.maxObj - 1).toNat]? = some last ∧ (last ≠ addrInval ↔ k = 0) := by
  have hslots := h.slots
  have hpred : (cfg.maxObj - 1).toNat = cfg.maxObj.toNat - 1 := by
    have hbound := cfg.maxObj.isLt
    rw [BitVec.toNat_sub]
    show (2 ^ 32 - 1 + cfg.maxObj.toNat) % 2 ^ 32 = _
    omega
  rw [hpred, h.eq]
  cases k with
  | zero =>
    have hlt : cfg.maxObj.toNat - 1 < used.length := by omega
    refine ⟨used[cfg.maxObj.toNat - 1], ?_, by simpa using h.valid _ (List.getElem_mem hlt)⟩
    rw [List.getElem?_append_left hlt, List.getElem?_eq_getElem hlt]
  | succ k =>
    refine ⟨addrInval, ?_, by simp⟩
    rw [List.getElem?_append_right (by omega), List.getElem?_replicate, if_pos (by omega)]

theorem MemAddrs.Doubled.pos (h : cfg.Doubled) : 0 < cfg.maxObj.toNat := by
  obtain ⟨n, hn⟩ := h
  rw [hn]
  exact Nat.two_pow_pos n

/-- The largest size. -/
theorem MemAddrs.Doubled.le (h : cfg.Doubled) : cfg.maxObj.toNat ≤ 2 ^ 31 := by
  obtain ⟨n, hn⟩ := h
  have hlt : 2 ^ n < 2 ^ 32 := hn ▸ cfg.maxObj.isLt
  have hn' : n < 32 := (Nat.pow_lt_pow_iff_right (by decide)).mp hlt
  rw [hn]
  exact Nat.pow_le_pow_right (by decide) (by omega)

/-- **A store** finds a slot, unless the array would have to grow beyond 2^31 objects. -/
theorem store_refines (junk : Nat → Ptr) (h : cfg.Refines t) (hd : cfg.Doubled) (ha : addrInval < a)
    (hp : t.peak < 2 ^ 31) : ∃ cfg', storeMemAddr junk a cfg = .ok cfg' ∧
      cfg'.Refines (t.store a) ∧ cfg'.Doubled := by
  obtain ⟨used, k, hs⟩ := h.split
  obtain ⟨last, hlast, hk⟩ := hs.last? hd.pos
  have hslots := hs.slots
  have hpeak := hs.peak
  -- The array after the size doubling.
  have hroom : ∃ k', MemAddrs.Split (if last ≠ addrInval then cfg.grow junk else cfg) t used (k' + 1) ∧
      MemAddrs.Doubled (if last ≠ addrInval then cfg.grow junk else cfg) := by
    cases k with
    | zero =>
      rw [if_pos (hk.mpr rfl)]
      obtain ⟨hg, hmax⟩ := grow_split junk hs (by omega)
      have hpos := hd.pos
      refine ⟨used.length - 1, ?_, ?_⟩
      · rw [Nat.sub_add_cancel (by omega)]
        exact hg
      · obtain ⟨n, hn⟩ := hd
        refine ⟨n + 1, ?_⟩
        rw [hmax, Nat.pow_succ, ← hn, hslots]
        omega
    | succ k =>
      rw [if_neg (fun h' => by simpa using hk.mp h')]
      exact ⟨k, hs, hd⟩
  obtain ⟨k', hs', hd'⟩ := hroom
  obtain ⟨j, used', k'', hslot, hfinal⟩ := store_split hs' ha
  unfold storeMemAddr
  simp only [hlast, hslot]
  exact ⟨_, rfl, hfinal.refines, hd'⟩

/-- The array of 2^31 objects is lost where it would have to grow. -/
theorem store_overflow (h : cfg.Refines t) (hd : cfg.Doubled) (hp : 2 ^ 31 ≤ t.peak)
    (hok : storeMemAddr junk a cfg = .ok cfg') (t' : Live) : ¬ cfg'.Refines t' := by
  obtain ⟨used, k, hs⟩ := h.split
  obtain ⟨last, hlast, hk⟩ := hs.last? hd.pos
  have hslots := hs.slots
  have hpeak := hs.peak
  have hle := hd.le
  obtain rfl : k = 0 := by omega
  have hmax : cfg.maxObj = BitVec.ofNat 32 (2 ^ 31) := BitVec.eq_of_toNat_eq (by simp; omega)
  have hzero : (cfg.grow junk).maxObj = 0 := by
    show cfg.maxObj <<< 1 = 0
    rw [hmax]
    decide
  have hnone : ∀ l j, freeSlot l j ((0 : U32).toNat - j) = .ok none := by
    intro l j
    rw [show (0 : U32).toNat - j = 0 from Nat.zero_sub j]
    rfl
  unfold storeMemAddr at hok
  simp only [hlast, if_pos (hk.mpr rfl), hzero, hnone] at hok
  obtain rfl : cfg.grow junk = cfg' := Except.ok.inj hok
  intro hr
  have hlast' := hr.last
  rw [hzero] at hlast'
  -- The first address is still there, and there is no end behind it.
  have h0 : 0 < used.length := by omega
  have hfirst : (cfg.grow junk).memAddrs[0]? = some used[0] := by
    unfold MemAddrs.grow realloc
    simp [hmax, hs.eq, List.getElem_append_left h0]
  rw [show (0 : U32).toNat = 0 from rfl, hfirst] at hlast'
  exact hs.valid _ (List.getElem_mem h0) (Option.some.inj hlast')

/-! ## Freeing -/

theorem findAddr_none (hv : ∀ b ∈ used, b ≠ addrInval) (hm : memAddr ∉ used) :
    findAddr memAddr (used ++ List.replicate (k + 1) addrInval) = .ok none := by
  induction used with
  | nil => rfl
  | cons b used ih =>
    obtain ⟨hb, hv⟩ := List.forall_mem_cons.mp hv
    obtain ⟨hne, hm⟩ := not_or.mp (mt List.mem_cons.mpr hm)
    rw [List.cons_append, findAddr, if_neg hb, if_neg (Ne.symm hne), ih hv hm]
    rfl

theorem findAddr_some {pre : List Ptr} (hv : ∀ b ∈ pre, b ≠ addrInval) (ha : a ≠ addrInval)
    (hm : a ∉ pre) : findAddr a (pre ++ a :: l) = .ok (some pre.length) := by
  induction pre with
  | nil =>
    rw [List.nil_append, findAddr, if_neg ha, if_pos rfl]
    rfl
  | cons b pre ih =>
    obtain ⟨hb, hv⟩ := List.forall_mem_cons.mp hv
    obtain ⟨hne, hm⟩ := not_or.mp (mt List.mem_cons.mpr hm)
    rw [List.cons_append, findAddr, if_neg hb, if_neg (Ne.symm hne), ih hv hm]
    rfl

/-- The slot of an address is made reusable. -/
theorem clear_split {pre post : List Ptr} (h : cfg.Split t (pre ++ a :: post) k)
    (ha : addrInval < a) (hm : a ∉ pre) :
    (cfg.clear pre.length).Split (t.free a) (pre ++ 0 :: post) k := by
  obtain ⟨hle, hlt⟩ := h.hint
  have hslots := h.slots
  have hbound := cfg.maxObj.isLt
  simp only [List.length_append, List.length_cons] at hslots hle
  have hlen : (pre ++ 0 :: post).length = (pre ++ a :: post).length := by simp
  refine ⟨?_, ?_, ?_, ?_, ⟨?_, ?_⟩, ?_⟩
  · show cfg.memAddrs.set pre.length 0 = _
    rw [h.eq]
    simp
  · rw [hlen]
    exact h.slots
  · intro b hb
    rcases List.mem_append.mp hb with hb | hb
    · exact h.valid b (List.mem_append_left _ hb)
    · rcases List.mem_cons.mp hb with rfl | hb
      · decide
      · exact h.valid b (List.mem_append_right _ (List.mem_cons_of_mem _ hb))
  · rw [hlen]
    exact h.peak
  · unfold MemAddrs.clear
    dsimp only
    split
    · simp only [BitVec.toNat_ofNat, List.length_append, List.length_cons]
      omega
    · simp only [List.length_append, List.length_cons]
      exact hle
  · -- The hint is not behind the slot.
    have hpre : ∀ n ≤ pre.length, n ≤ cfg.insertIdx.toNat →
        ∀ b ∈ (pre ++ 0 :: post).take n, addrInval < b := by
      intro n hn hn' b hb
      rw [List.take_append_of_le_length hn] at hb
      refine hlt b (List.mem_of_mem_take (i := n) ?_)
      rw [List.take_take, Nat.min_eq_left hn', List.take_append_of_le_length hn]
      exact hb
    unfold MemAddrs.clear
    dsimp only
    split
    · rename_i hj
      have hmod : (BitVec.ofNat 32 pre.length).toNat = pre.length := by
        rw [BitVec.toNat_ofNat]
        omega
      rw [hmod]
      exact hpre _ le_rfl hj.le
    · rename_i hj
      exact hpre _ (by omega) le_rfl
  · show _ = t.addrs.erase a
    rw [← h.addrs, List.filter_append, List.filter_append, List.filter_cons_of_neg (by decide),
      List.filter_cons_of_pos (by simpa using ha), Multiset.coe_erase,
      List.erase_append_right _ fun h' => hm (List.mem_filter.mp h').1, List.erase_cons_head]

/-- **A free** of one entry: an address that is tracked is removed. -/
theorem find_refines (h : cfg.Refines t) (ha : a ≠ 0) :
    (a ∉ t.addrs → findAddr a cfg.memAddrs = .ok none) ∧
      (a ∈ t.addrs → ∃ j, findAddr a cfg.memAddrs = .ok (some j) ∧
        (cfg.clear j).Refines (t.free a)) := by
  obtain ⟨used, k, hs⟩ := h.split
  have hmem : a ∈ t.addrs ↔ a ∈ used := by
    rw [← hs.addrs, Multiset.mem_coe, List.mem_filter]
    refine ⟨fun h => h.1, fun h => ⟨h, ?_⟩⟩
    simpa using addrInval_lt_iff.mpr ⟨ha, hs.valid a h⟩
  rw [hmem]
  constructor
  · intro hm
    rw [hs.eq]
    exact findAddr_none hs.valid hm
  · intro hm
    have hinv := hs.valid a hm
    obtain ⟨pre, post, rfl, hpre⟩ := List.eq_append_cons_of_mem hm
    refine ⟨pre.length, ?_, (clear_split hs (addrInval_lt_iff.mpr ⟨ha, hinv⟩) hpre).refines⟩
    rw [hs.eq, List.append_assoc, List.cons_append]
    exact findAddr_some (fun b hb => hs.valid b (List.mem_append_left _ hb)) hinv hpre

end Slots

/-! ## Runs -/

/-- A call: `store_mem_addr` for the entry `i`, or `preprocess_free`. -/
inductive MemOp where
  | store (i : Nat) (memAddr : Ptr) (h : addrInval < memAddr) (junk : Nat → Ptr)
  | free (memAddr : Ptr)

/-- The entries and the messages that were sent. Beside them, what the entries stand for and the
messages that are due. -/
structure HackRun where
  config : List MemAddrs
  sent : List HackMsg
  live : List Live
  due : List HackMsg

namespace HackRun

def init (numCfg : Nat) : HackRun :=
  ⟨List.replicate numCfg .init, [], List.replicate numCfg .none, []⟩

instance (a : Ptr) (ts : List Live) : Decidable (Tracked a ts) :=
  inferInstanceAs (Decidable (∃ t ∈ ts, a ∈ t.addrs))

def storeStep (s : HackRun) (i : Nat) (memAddr : Ptr) (junk : Nat → Ptr) : Except Fault HackRun :=
  match s.config[i]? with
  | none => .ok s
  | some cfg => do
    let cfg ← storeMemAddr junk memAddr cfg
    return { s with config := s.config.set i cfg, live := s.live.modify i (Live.store memAddr) }

def freeStep (s : HackRun) (memAddr : Ptr) : Except Fault HackRun := do
  let (config, msgs) ← preprocessFree memAddr s.config
  return {
    config := config
    sent := s.sent ++ msgs
    live := freeLive memAddr s.live
    due := s.due ++ if Tracked memAddr s.live then [.free memAddr] else [] }

def step (s : HackRun) : MemOp → Except Fault HackRun
  | .store i memAddr _ junk => s.storeStep i memAddr junk
  | .free memAddr => s.freeStep memAddr

/-- The arrays stand for the live objects, and the messages are those that are due. -/
structure Refines (s : HackRun) : Prop where
  config : List.Forall₂ MemAddrs.Refines s.config s.live
  sent : s.sent = s.due

/-- A store into an entry that never tracked 2^31 addresses at the same time. -/
def HasRoom (s : HackRun) : MemOp → Prop
  | .store i _ _ _ => ∀ t, s.live[i]? = some t → t.peak < 2 ^ 31
  | .free _ => True

end HackRun

section Runs

variable {s s' : HackRun} {op : MemOp} {ops : List MemOp} {config : List MemAddrs}
  {ts : List Live} {a : Ptr}

theorem clearAddr_refines (h : List.Forall₂ MemAddrs.Refines config ts) (ha : a ≠ 0) :
    ∃ config', clearAddr a config = .ok (config', decide (Tracked a ts)) ∧
      List.Forall₂ MemAddrs.Refines config' (freeLive a ts) ∧
      ((∀ cfg ∈ config, cfg.Doubled) → ∀ cfg ∈ config', cfg.Doubled) := by
  induction h with
  | nil => exact ⟨[], rfl, .nil, fun h => h⟩
  | @cons cfg t config ts hr hrest ih =>
    obtain ⟨hnone, hsome⟩ := find_refines hr ha
    unfold clearAddr freeLive
    by_cases hm : a ∈ t.addrs
    · obtain ⟨j, hj, hclear⟩ := hsome hm
      have htr : Tracked a (t :: ts) := ⟨t, List.mem_cons_self, hm⟩
      rw [hj, if_pos hm, decide_eq_true htr]
      refine ⟨_, rfl, .cons hclear hrest, fun h => ?_⟩
      obtain ⟨hd, hds⟩ := List.forall_mem_cons.mp h
      exact List.forall_mem_cons.mpr ⟨hd, hds⟩
    · obtain ⟨config', h', hfree, hds⟩ := ih
      have htr : Tracked a (t :: ts) ↔ Tracked a ts := by simp [Tracked, hm]
      rw [hnone hm, if_neg hm, decide_eq_decide.mpr htr]
      simp only [Run.ok_bind, h']
      refine ⟨_, rfl, .cons hr hfree, fun h => ?_⟩
      obtain ⟨hd, hrest'⟩ := List.forall_mem_cons.mp h
      exact List.forall_mem_cons.mpr ⟨hd, hds hrest'⟩

theorem tracked_ne_zero (h : List.Forall₂ MemAddrs.Refines config ts) : ¬ Tracked 0 ts := by
  rintro ⟨t, ht, hm⟩
  obtain ⟨i, hi⟩ := List.mem_iff_getElem?.mp ht
  obtain ⟨cfg, -, hr⟩ := Pointwise.getElem? h hi
  rw [← hr.addrs, Multiset.mem_coe, List.mem_filter] at hm
  exact absurd hm.2 (by decide)

theorem freeLive_of_not_tracked (h : ¬ Tracked a ts) : freeLive a ts = ts := by
  induction ts with
  | nil => rfl
  | cons t ts ih =>
    simp only [Tracked, List.mem_cons, exists_eq_or_imp, not_or] at h
    rw [freeLive, if_neg h.1, ih h.2]

/-- **A free** always goes well. -/
theorem free_refines_run (h : s.Refines) (hd : ∀ cfg ∈ s.config, cfg.Doubled) (a : Ptr) :
    ∃ s', s.freeStep a = .ok s' ∧ s'.Refines ∧ ∀ cfg ∈ s'.config, cfg.Doubled := by
  unfold HackRun.freeStep preprocessFree
  by_cases h0 : a = 0
  · subst h0
    have htr := tracked_ne_zero h.config
    rw [if_pos rfl, if_neg htr, freeLive_of_not_tracked htr]
    exact ⟨_, rfl, ⟨h.config, by simpa using h.sent⟩, hd⟩
  · obtain ⟨config', hc, hfree, hds⟩ := clearAddr_refines h.config h0
    rw [if_neg h0, hc]
    refine ⟨_, rfl, ⟨hfree, ?_⟩, hds hd⟩
    show s.sent ++ _ = s.due ++ _
    simp [h.sent]

/-- A store goes well if the entry has room. -/
theorem store_refines_run (i : Nat) (junk : Nat → Ptr) (h : s.Refines)
    (hd : ∀ cfg ∈ s.config, cfg.Doubled) (ha : addrInval < a)
    (hp : ∀ t, s.live[i]? = some t → t.peak < 2 ^ 31) :
    ∃ s', s.storeStep i a junk = .ok s' ∧ s'.Refines ∧ ∀ cfg ∈ s'.config, cfg.Doubled := by
  unfold HackRun.storeStep
  cases hi : s.config[i]? with
  | none => exact ⟨s, rfl, h, hd⟩
  | some cfg =>
    obtain ⟨t, ht, hr⟩ := Pointwise.getElem? h.config.flip hi
    obtain ⟨cfg', hstore, hr', hd'⟩ :=
      store_refines junk hr (hd cfg (List.mem_of_getElem? hi)) ha (hp t ht)
    simp only [hstore]
    refine ⟨_, rfl, ⟨Pointwise.set_modify h.config fun t' ht' => ?_, h.sent⟩, fun cfg'' hm => ?_⟩
    · cases ht.symm.trans ht'
      exact hr'
    · rcases List.mem_or_eq_of_mem_set hm with hm | rfl
      · exact hd cfg'' hm
      · exact hd'

/-- **A step** keeps the refinement exactly if it has room. -/
theorem hackRun_step_iff (h : s.Refines) (hd : ∀ cfg ∈ s.config, cfg.Doubled) (op : MemOp) :
    (∃ s', s.step op = .ok s' ∧ s'.Refines) ↔ s.HasRoom op := by
  cases op with
  | free a =>
    obtain ⟨s', hs', hr, -⟩ := free_refines_run h hd a
    exact ⟨fun _ => trivial, fun _ => ⟨s', hs', hr⟩⟩
  | store i a ha junk =>
    constructor
    · rintro ⟨s', hs', hr'⟩ t ht
      by_contra hp
      obtain ⟨cfg, hi, hr⟩ := Pointwise.getElem? h.config ht
      have hs'' : s.storeStep i a junk = .ok s' := hs'
      unfold HackRun.storeStep at hs''
      simp only [hi] at hs''
      obtain ⟨cfg', hstore, hs''⟩ := Run.bind_eq_ok.mp hs''
      cases hs''
      have hlt := (List.getElem?_eq_some_iff.mp hi).1
      obtain ⟨t', -, hr''⟩ := Pointwise.getElem? hr'.config.flip
        (show (s.config.set i cfg')[i]? = some cfg' from List.getElem?_set_self hlt)
      exact store_overflow hr (hd cfg (List.mem_of_getElem? hi)) (by omega) hstore t' hr''
    · intro hp
      obtain ⟨s', hs', hr, -⟩ := store_refines_run i junk h hd ha hp
      exact ⟨s', hs', hr⟩

theorem hackRun_step_doubled (h : s.Refines) (hd : ∀ cfg ∈ s.config, cfg.Doubled)
    (hs : s.step op = .ok s') (hr : s'.Refines) : ∀ cfg ∈ s'.config, cfg.Doubled := by
  have hroom := (hackRun_step_iff h hd op).mp ⟨s', hs, hr⟩
  cases op with
  | free a =>
    obtain ⟨s'', hs'', -, hd'⟩ := free_refines_run h hd a
    cases hs.symm.trans hs''
    exact hd'
  | store i a ha junk =>
    obtain ⟨s'', hs'', -, hd'⟩ := store_refines_run i junk h hd ha hroom
    cases hs.symm.trans hs''
    exact hd'

theorem init_refines : MemAddrs.init.Refines .none := by
  have hs : MemAddrs.init.Split .none [] 1 := ⟨rfl, rfl, by simp, rfl, ⟨by decide, by simp⟩, rfl⟩
  exact hs.refines

theorem hackRun_init (numCfg : Nat) : (HackRun.init numCfg).Refines ∧
    ∀ cfg ∈ (HackRun.init numCfg).config, cfg.Doubled := by
  refine ⟨⟨?_, rfl⟩, fun cfg hm => ⟨0, ?_⟩⟩
  · show List.Forall₂ _ (List.replicate numCfg _) (List.replicate numCfg _)
    induction numCfg with
    | zero => exact .nil
    | succ n ih => exact .cons init_refines ih
  · rw [List.eq_of_mem_replicate hm]
    rfl

/-- **The arrays of addresses** stand for the live objects all along a run exactly if no entry is
stored into after it has tracked 2^31 addresses at the same time. -/
theorem run_live_iff (numCfg : Nat) (ops : List MemOp) :
    Run.Always HackRun.step HackRun.Refines (.init numCfg) ops ↔
      Run.Each HackRun.step HackRun.HasRoom (.init numCfg) ops := by
  obtain ⟨hr, hd⟩ := hackRun_init numCfg
  exact Run.always_iff_each_of_kept (I := fun s => ∀ cfg ∈ s.config, cfg.Doubled)
    (fun s op h hd => hackRun_step_iff h hd op)
    (fun s op s' h hd hs hr => hackRun_step_doubled h hd hs hr) hr hd

theorem storeStep_live {i : Nat} {junk : Nat → Ptr} (hs : s.storeStep i a junk = .ok s')
    (hi : i < s.config.length) : s'.live = s.live.modify i (Live.store a) := by
  unfold HackRun.storeStep at hs
  rw [List.getElem?_eq_getElem hi] at hs
  obtain ⟨cfg, -, hs⟩ := Run.bind_eq_ok.mp hs
  cases hs
  rfl

/-- The same address, again and again. -/
theorem run_stores (ha : addrInval < a) (junk : Nat → Ptr) (n : Nat) (hn : n ≤ 2 ^ 31) :
    ∃ s', Run.run HackRun.step (.init 1) (List.replicate n (.store 0 a ha junk)) = .ok s' ∧
      s'.Refines ∧ (∀ cfg ∈ s'.config, cfg.Doubled) ∧
      s'.live = [⟨Multiset.replicate n a, n⟩] := by
  induction n with
  | zero =>
    obtain ⟨hr, hd⟩ := hackRun_init 1
    exact ⟨_, rfl, hr, hd, rfl⟩
  | succ n ih =>
    obtain ⟨s, hs, hr, hd, hlive⟩ := ih (by omega)
    obtain ⟨s', hs', hr', hd'⟩ := store_refines_run 0 junk hr hd ha fun t ht => by
      rw [hlive] at ht
      cases ht
      show n < 2 ^ 31
      omega
    have hlen : s.config.length = 1 := by rw [hr.config.length_eq, hlive]; rfl
    refine ⟨s', ?_, hr', hd', ?_⟩
    · rw [List.replicate_succ', Run.run_append, hs]
      show Run.run HackRun.step s [_] = _
      rw [Run.run_cons_ok hs']
      rfl
    · rw [storeStep_live hs' (by omega), hlive]
      simp [Live.store, Multiset.replicate_succ]

/-- 2^31 objects of one entry, and one more. -/
theorem run_not_live : ¬ Run.Always HackRun.step HackRun.Refines (.init 1)
    (List.replicate (2 ^ 31 + 1) (.store 0 2 (by decide) fun _ => 0)) := by
  rw [run_live_iff]
  intro h
  obtain ⟨s, hs, -, -, hlive⟩ := run_stores (a := 2) (by decide) (fun _ => 0) (2 ^ 31) le_rfl
  have hroom : s.HasRoom (.store 0 2 (by decide) fun _ => 0) :=
    h _ _ s (by rw [← List.replicate_succ']) hs
  exact absurd (hroom _ (by rw [hlive]; rfl)) (Nat.lt_irrefl _)

end Runs

end UgTrain
