import UgTrain.MallocQueue
import UgTrain.Objects

/-!
# Object tracking over whole runs

Next to the malloc queue and the classes, `ObjRun` keeps what the game has: the objects that are
allocated and not yet freed (`live`), and which of them an object check has kicked.

`ObjRun.Tracked`: the addresses in the queue and in the vectors of the classes are those of the
live objects that were not kicked. It holds after every step of every run in which the game
allocates and frees properly and no message is refused (`run_tracked`).
-/

namespace UgTrain

open CLib

/-- An object of the game. -/
structure LiveObj where
  memAddr : Ptr
  memSize : SizeT
  /-- An object check has failed since it was allocated. -/
  kicked : Bool
  deriving DecidableEq, Repr

/-- The queue, the config, and the objects of the game. -/
structure ObjRun where
  mq : MQueue
  cfg : CfgMem
  live : List LiveObj

/-- What happens: `queue_dynmem_addr`, `clear_dynmem_addr`, `process_mallocs`, `free_dynmem`,
`alloc_dynmem`, and an object check that fails for the object `i` of the class `d`. -/
inductive ObjOp where
  | alloc (m : AllocMsg) (behind : Str) (ppos : Nat)
  | free (memAddr : Ptr)
  | processMallocs
  | freeDynmem
  | allocDynmem
  | kick (d i : Nat)

/-- `alloc_dynmem_addr` as a callback. -/
def allocMf (cfg : List CfgEntry) (_ : PostParse) (memAddr : Ptr) (memSize : SizeT)
    (_ codeAddr _ : Ptr) (dynmems : List DynMemEntry) : Except Fault (List DynMemEntry) :=
  .ok (allocDynmemAddr cfg memAddr memSize codeAddr dynmems)

/-- The address that an object check sets to 0. -/
def CfgMem.objAddr (cfg : CfgMem) (d i : Nat) : Option Ptr :=
  cfg.dynmems[d]?.bind fun dm => dm.vMaddr[i]?

def CfgMem.kick (cfg : CfgMem) (d i : Nat) : CfgMem :=
  { cfg with dynmems := cfg.dynmems.modify d (·.kickObj i) }

def LiveObj.kick (o : LiveObj) (memAddr : Option Ptr) : LiveObj :=
  if some o.memAddr = memAddr then { o with kicked := true } else o

def ObjRun.step (s : ObjRun) : ObjOp → Except Fault ObjRun
  | .alloc m behind ppos => do
    let mq ← queueDynmemAddr (m.postParse behind ppos) s.mq
    return { s with mq := mq, live := ⟨m.memAddr, m.memSize, false⟩ :: s.live }
  | .free memAddr => do
    let (cfg, mq) ← clearDynmemAddr s.cfg s.mq memAddr
    return ⟨mq, cfg, s.live.filter (·.memAddr ≠ memAddr)⟩
  | .processMallocs => do
    let (mq, dynmems) ← UgTrain.processMallocs (allocMf s.cfg.entries) .sc s.mq s.cfg.dynmems
    return { s with mq := mq, cfg := { s.cfg with dynmems := dynmems } }
  | .freeDynmem => return { s with cfg := UgTrain.freeDynmem s.cfg }
  | .allocDynmem => return { s with cfg := UgTrain.allocDynmem s.cfg }
  | .kick d i =>
    return { s with cfg := s.cfg.kick d i, live := s.live.map (·.kick (s.cfg.objAddr d i)) }

/-- The game allocates an address that is not live, from a known code address, and the queue has
room for the message; it frees an address that is live. -/
def ObjRun.Proper (s : ObjRun) : ObjOp → Prop
  | .alloc m _ _ => m.memAddr ≠ 0 ∧ (∀ o ∈ s.live, o.memAddr ≠ m.memAddr) ∧
      Accepted s.cfg.entries s.cfg.dynmems m.codeAddr ∧ s.mq.Fits m
  | .free memAddr => memAddr ≠ 0 ∧ ∃ o ∈ s.live, o.memAddr = memAddr
  | _ => True

/-- The live objects that were not kicked, each with its size. -/
def ObjRun.expected (s : ObjRun) : List (Ptr × SizeT) :=
  (s.live.filter (!·.kicked)).map fun o => (o.memAddr, o.memSize)

/-- The addresses that are not 0 in the vectors of all classes. -/
def CfgMem.addrs (cfg : CfgMem) : List Ptr :=
  cfg.dynmems.flatMap fun dm => dm.vMaddr.filter (· ≠ 0)

/-- **Every live object that was not kicked is tracked, exactly once**, in the queue or in a
class, and with its size. No other address is: no freed one in particular. -/
structure ObjRun.Tracked (s : ObjRun) : Prop where
  addrs : ∃ ms, s.mq.Holds ms ∧
    ((ms.map (·.memAddr) ++ s.cfg.addrs : List Ptr) : Multiset Ptr) =
      ((s.live.filter (!·.kicked)).map (·.memAddr) : List Ptr)
  nodup : (s.live.map (·.memAddr)).Nodup
  sizes : ∀ (d : Nat) (dm : DynMemEntry) (i : Nat) (memAddr : Ptr),
    s.cfg.dynmems[d]? = some dm → dm.vMaddr[i]? = some memAddr → memAddr ≠ 0 →
    ∃ o ∈ s.live, o.memAddr = memAddr ∧ dm.vMsize[i]? = some o.memSize

/-! ## The invariant -/

/-- The object of a message. -/
def AllocMsg.obj (m : AllocMsg) : Ptr × SizeT := (m.memAddr, m.memSize)

/-- What every step preserves; `ms` are the messages in the queue. -/
structure ObjRun.Inv (s : ObjRun) (ms : List AllocMsg) : Prop where
  holds : s.mq.Holds ms
  objs : ((ms.map AllocMsg.obj : List (Ptr × SizeT)) : Multiset (Ptr × SizeT)) +
    allObjs s.cfg.dynmems = s.expected
  nodup : (s.live.map (·.memAddr)).Nodup
  nonzero : ∀ o ∈ s.live, o.memAddr ≠ 0
  ok : ObjsOk s.cfg.entries s.cfg.dynmems
  accepted : ∀ m ∈ ms, Accepted s.cfg.entries s.cfg.dynmems m.codeAddr

theorem mem_expected {s : ObjRun} {x : Ptr × SizeT} (h : x ∈ s.expected) :
    ∃ o ∈ s.live, o.memAddr = x.1 ∧ o.memSize = x.2 := by
  obtain ⟨o, ho, rfl⟩ := List.mem_map.mp h
  exact ⟨o, (List.mem_filter.mp ho).1, rfl, rfl⟩

theorem nodup_expected {s : ObjRun} (h : (s.live.map (·.memAddr)).Nodup) :
    (s.expected.map (·.1)).Nodup := by
  unfold ObjRun.expected
  rw [List.map_map]
  exact h.sublist (List.filter_sublist.map _)

/-- The vectors of a class, as addresses and as objects. -/
theorem objs_map_fst {dm : DynMemEntry} (ha : dm.Aligned) :
    dm.objs.map (·.1) = dm.vMaddr.filter (· ≠ 0) := by
  have hz : (dm.vMaddr.zip dm.vMsize).map (·.1) = dm.vMaddr :=
    List.map_fst_zip (le_of_eq ha)
  unfold DynMemEntry.objs
  conv => rhs; rw [← hz]
  rw [List.filter_map]
  rfl

theorem allObjs_map_fst {dynmems : List DynMemEntry} (ha : ∀ dm ∈ dynmems, dm.Aligned) :
    (allObjs dynmems).map (·.1) = dynmems.flatMap fun dm => dm.vMaddr.filter (· ≠ 0) := by
  unfold allObjs
  rw [List.map_flatMap]
  exact List.flatMap_congr fun dm hdm => objs_map_fst (ha dm hdm)

/-- **The invariant says that the objects are tracked.** -/
theorem ObjRun.Inv.tracked {s : ObjRun} {ms : List AllocMsg} (h : s.Inv ms) : s.Tracked := by
  refine ⟨⟨ms, h.holds, ?_⟩, h.nodup, ?_⟩
  · have hmap := congrArg (Multiset.map (·.1)) h.objs
    rw [Multiset.map_add] at hmap
    simp only [Multiset.map_coe, List.map_map, allObjs_map_fst h.ok.aligned, Multiset.coe_add,
      ObjRun.expected] at hmap
    exact hmap
  · intro d dm i memAddr hd hi h0
    have hdm := List.mem_of_getElem? hd
    obtain ⟨size, hs, hz⟩ := zip_getElem? (h.ok.aligned dm hdm) hi
    have hobj : (memAddr, size) ∈ allObjs s.cfg.dynmems := by
      refine mem_allObjs.mpr ⟨d, dm, hd, List.mem_filter.mpr ⟨List.mem_of_getElem? hz, ?_⟩⟩
      simpa using h0
    have hexp : (memAddr, size) ∈ s.expected := by
      rw [← Multiset.mem_coe, ← h.objs]
      exact Multiset.mem_add.mpr (.inr hobj)
    obtain ⟨o, ho, ha, hsz⟩ := mem_expected hexp
    exact ⟨o, ho, ha, by rw [hs, hsz]⟩

/-! ## One object less -/

/-- Where an address stands once, taking its object away is taking away all with the address. -/
theorem filter_of_cons {E : List (Ptr × SizeT)} (hE : (E.map (·.1)).Nodup) {a : Ptr}
    {size : SizeT} {M : Multiset (Ptr × SizeT)} (h : (a, size) ::ₘ M = E) :
    M = (E.filter (·.1 ≠ a) : List (Ptr × SizeT)) := by
  have hM : ∀ x ∈ M, x.1 ≠ a := by
    have hnd : (Multiset.map (·.1) ((a, size) ::ₘ M)).Nodup := by
      rw [h, Multiset.map_coe, Multiset.coe_nodup]; exact hE
    rw [Multiset.map_cons, Multiset.nodup_cons] at hnd
    intro x hx hxa
    exact hnd.1 (Multiset.mem_map.mpr ⟨x, hx, hxa⟩)
  rw [← Multiset.filter_coe, ← h, Multiset.filter_cons_of_neg _ (by simp)]
  exact (Multiset.filter_eq_self.mpr hM).symm

/-- Where an address does not stand, nothing is taken away. -/
theorem filter_of_not_mem {E : List (Ptr × SizeT)} {a : Ptr} {M : Multiset (Ptr × SizeT)}
    (h : M = E) (ha : ∀ x ∈ M, x.1 ≠ a) :
    M = (E.filter (·.1 ≠ a) : List (Ptr × SizeT)) := by
  rw [← Multiset.filter_coe, ← h]
  exact (Multiset.filter_eq_self.mpr ha).symm

/-- The first message with an address, and the others. -/
theorem eraseP_obj {ms : List AllocMsg} {a : Ptr} (h : ms.any (·.memAddr = a)) :
    ∃ size, ((ms.map AllocMsg.obj : List (Ptr × SizeT)) : Multiset (Ptr × SizeT)) =
      (a, size) ::ₘ ((ms.eraseP (·.memAddr = a)).map AllocMsg.obj : List (Ptr × SizeT)) := by
  induction ms with
  | nil => simp at h
  | cons m ms ih =>
    by_cases hm : m.memAddr = a
    · refine ⟨m.memSize, ?_⟩
      rw [List.eraseP_cons_of_pos (by simpa using hm), List.map_cons, ← Multiset.cons_coe,
        AllocMsg.obj, hm]
    · have hany : ms.any (·.memAddr = a) := by simpa [hm] using h
      obtain ⟨size, he⟩ := ih hany
      refine ⟨size, ?_⟩
      rw [List.eraseP_cons_of_neg (by simpa using hm), List.map_cons, List.map_cons,
        ← Multiset.cons_coe, he, ← Multiset.cons_coe, Multiset.cons_swap]

/-- The objects that remain expected after a free. -/
theorem expected_filter (live : List LiveObj) (a : Ptr) :
    ((live.filter (·.memAddr ≠ a)).filter (!·.kicked)).map (fun o => (o.memAddr, o.memSize)) =
      ((live.filter (!·.kicked)).map fun o => (o.memAddr, o.memSize)).filter (·.1 ≠ a) := by
  rw [List.filter_map, List.filter_filter, List.filter_filter]
  congr 1
  exact List.filter_congr fun o _ => by simp [Bool.and_comm]

/-- The objects that remain expected after a kick. -/
theorem expected_kick (live : List LiveObj) (a : Ptr) :
    ((live.map (·.kick (some a))).filter (!·.kicked)).map (fun o => (o.memAddr, o.memSize)) =
      ((live.filter (!·.kicked)).map fun o => (o.memAddr, o.memSize)).filter (·.1 ≠ a) := by
  induction live with
  | nil => rfl
  | cons o live ih =>
    by_cases ho : o.memAddr = a
    · have hk : o.kick (some a) = { o with kicked := true } := by simp [LiveObj.kick, ho]
      rw [List.map_cons, hk, List.filter_cons_of_neg (by simp), ih, List.filter_cons]
      split
      · rw [List.map_cons, List.filter_cons_of_neg (by simp [ho])]
      · rfl
    · have hk : o.kick (some a) = o := by simp [LiveObj.kick, ho]
      rw [List.map_cons, hk, List.filter_cons, List.filter_cons]
      split
      · rw [List.map_cons, List.map_cons, List.filter_cons_of_pos (by simpa using ho), ih]
      · exact ih

theorem kick_none (live : List LiveObj) : live.map (·.kick none) = live := by
  have : ∀ o : LiveObj, o.kick none = o := fun o => by simp [LiveObj.kick]
  simp [this]

theorem map_kick_memAddr (live : List LiveObj) (a : Option Ptr) :
    (live.map (·.kick a)).map (·.memAddr) = live.map (·.memAddr) := by
  rw [List.map_map]
  refine List.map_congr_left fun o _ => ?_
  simp only [Function.comp, LiveObj.kick]
  split <;> rfl

/-! ## Steps -/

/-- **A message is queued**: one live object more, and its message in the queue. -/
theorem step_alloc {s : ObjRun} {ms : List AllocMsg} (h : s.Inv ms) {m : AllocMsg} (behind : Str)
    (ppos : Nat) (hp : s.Proper (.alloc m behind ppos)) :
    ∃ s', s.step (.alloc m behind ppos) = .ok s' ∧ s'.Inv (ms ++ [m]) := by
  obtain ⟨h0, hnew, hacc, hfit⟩ := hp
  obtain ⟨mq', hok, hholds⟩ := queueDynmemAddr_holds h.holds hfit behind ppos
  refine ⟨⟨mq', s.cfg, ⟨m.memAddr, m.memSize, false⟩ :: s.live⟩, ?_, hholds, ?_, ?_, ?_, h.ok, ?_⟩
  · simp only [ObjRun.step, hok, Run.ok_bind]; rfl
  · have hexp : ObjRun.expected ⟨mq', s.cfg, ⟨m.memAddr, m.memSize, false⟩ :: s.live⟩ =
        m.obj :: s.expected := rfl
    rw [hexp, ← Multiset.cons_coe, ← h.objs, List.map_append, ← Multiset.coe_add, add_right_comm,
      Multiset.add_comm, List.map_singleton, Multiset.coe_singleton, Multiset.singleton_add]
  · rw [List.map_cons, List.nodup_cons]
    refine ⟨fun hmem => ?_, h.nodup⟩
    obtain ⟨o, ho, ha⟩ := List.mem_map.mp hmem
    exact hnew o ho ha
  · intro o ho
    rcases List.mem_cons.mp ho with rfl | ho
    · exact h0
    · exact h.nonzero o ho
  · intro m' hm'
    rcases List.mem_append.mp hm' with hm' | hm'
    · exact h.accepted m' hm'
    · rw [List.mem_singleton.mp hm']; exact hacc

/-- **An object is freed**: its message leaves the queue, or its address the vector of its class. -/
theorem step_free {s : ObjRun} {ms : List AllocMsg} (h : s.Inv ms) {a : Ptr}
    (hp : s.Proper (.free a)) :
    ∃ s' ms', s.step (.free a) = .ok s' ∧ s'.Inv ms' := by
  obtain ⟨h0, -⟩ := hp
  have hE := nodup_expected h.nodup
  obtain ⟨mq', hok, hholds⟩ := removeMallocFromQueue_holds h.holds a
  have hnodup : ((s.live.filter (·.memAddr ≠ a)).map (·.memAddr)).Nodup :=
    h.nodup.sublist (List.filter_sublist.map _)
  have hnonzero : ∀ o ∈ s.live.filter (·.memAddr ≠ a), o.memAddr ≠ 0 :=
    fun o ho => h.nonzero o (List.mem_filter.mp ho).1
  have herase : ∀ m ∈ ms.eraseP (·.memAddr = a), m ∈ ms := fun m => List.mem_of_mem_eraseP
  by_cases hany : ms.any (·.memAddr = a)
  · refine ⟨⟨mq', s.cfg, s.live.filter (·.memAddr ≠ a)⟩, _, ?_, hholds, ?_, hnodup, hnonzero, h.ok,
      fun m hm => h.accepted m (herase m hm)⟩
    · simp only [ObjRun.step, clearDynmemAddr, hok, hany, Run.ok_bind]; rfl
    · obtain ⟨size, hm⟩ := eraseP_obj hany
      have hobjs := h.objs
      rw [hm, Multiset.cons_add] at hobjs
      rw [ObjRun.expected, expected_filter]
      exact filter_of_cons hE hobjs
  · have hnone : ms.eraseP (·.memAddr = a) = ms :=
      List.eraseP_of_forall_not fun m hm hma => hany (List.any_eq_true.mpr ⟨m, hm, hma⟩)
    rw [hnone] at hholds
    obtain ⟨hclear, hok', hacc'⟩ := clearObjs_objs h.ok h0
    refine ⟨⟨mq', { s.cfg with dynmems := clearObjs s.cfg.entries a s.cfg.dynmems },
      s.live.filter (·.memAddr ≠ a)⟩, ms, ?_, hholds, ?_, hnodup, hnonzero, hok',
      fun m hm => (hacc' _).mpr (h.accepted m hm)⟩
    · simp only [ObjRun.step, clearDynmemAddr, hok, hany, Run.ok_bind]; rfl
    · rw [ObjRun.expected, expected_filter]
      have hobjs := h.objs
      rcases hclear with ⟨size, hc⟩ | ⟨hno, hsame⟩
      · rw [hc, Multiset.add_cons] at hobjs
        exact filter_of_cons hE hobjs
      · refine filter_of_not_mem (by rw [hsame]; exact hobjs) fun x hx => ?_
        rcases Multiset.mem_add.mp hx with hx | hx
        · obtain ⟨m, hm, rfl⟩ := List.mem_map.mp hx
          intro hma
          have hma' : m.memAddr = a := hma
          exact hany (List.any_eq_true.mpr ⟨m, hm, by simpa using hma'⟩)
        · rw [hsame] at hx
          exact hno x hx

/-- What a flush does with the arguments of one message. -/
def allocArgs (cfg : List CfgEntry) (dynmems : List DynMemEntry) (x : Ptr × SizeT × Ptr) :
    List DynMemEntry :=
  allocDynmemAddr cfg x.1 x.2.1 x.2.2 dynmems

/-- The messages of a flush become objects, one after the other. -/
theorem foldl_alloc {cfg : List CfgEntry} (ms : List AllocMsg) {dynmems : List DynMemEntry}
    (hok : ObjsOk cfg dynmems) (hacc : ∀ m ∈ ms, Accepted cfg dynmems m.codeAddr)
    (h0 : ∀ m ∈ ms, m.memAddr ≠ 0) :
    (allObjs ((ms.map AllocMsg.args).foldl (allocArgs cfg) dynmems) :
        Multiset (Ptr × SizeT)) =
        ((ms.map AllocMsg.obj : List (Ptr × SizeT)) : Multiset (Ptr × SizeT)) + allObjs dynmems ∧
      ObjsOk cfg ((ms.map AllocMsg.args).foldl (allocArgs cfg) dynmems) := by
  induction ms generalizing dynmems with
  | nil => simp [hok]
  | cons m ms ih =>
    obtain ⟨hobjs, hok', hacc'⟩ :=
      allocDynmemAddr_objs m.memSize hok (hacc m (by simp)) (h0 m (by simp))
    obtain ⟨h1, h2⟩ := ih hok' (fun m' hm' => (hacc' _).mpr (hacc m' (by simp [hm'])))
      fun m' hm' => h0 m' (by simp [hm'])
    refine ⟨?_, h2⟩
    rw [List.map_cons, List.foldl_cons, List.map_cons, ← Multiset.cons_coe]
    refine h1.trans ?_
    rw [hobjs, ← Multiset.singleton_add, ← add_assoc, add_comm _ {(m.memAddr, m.memSize)},
      ← add_assoc]
    rfl

/-- **A flush** turns the messages into objects. -/
theorem step_processMallocs {s : ObjRun} {ms : List AllocMsg} (h : s.Inv ms) :
    ∃ s', s.step .processMallocs = .ok s' ∧ s'.Inv [] := by
  have hmf : ∀ pp memAddr size offs codeAddr stackOffs a,
      allocMf s.cfg.entries pp memAddr size offs codeAddr stackOffs a =
        .ok (allocArgs s.cfg.entries a (memAddr, size, codeAddr)) := fun _ _ _ _ _ _ _ => rfl
  obtain ⟨mq', hrun, hholds⟩ := processMallocs_holds h.holds hmf s.cfg.dynmems
  have h0 : ∀ m ∈ ms, m.memAddr ≠ 0 := by
    intro m hm
    have hexp : m.obj ∈ s.expected := by
      rw [← Multiset.mem_coe, ← h.objs]
      exact Multiset.mem_add.mpr (.inl (List.mem_map_of_mem hm))
    obtain ⟨o, ho, ha, -⟩ := mem_expected hexp
    have ha' : o.memAddr = m.memAddr := ha
    exact ha' ▸ h.nonzero o ho
  obtain ⟨hobjs, hok⟩ := foldl_alloc ms h.ok h.accepted h0
  generalize (ms.map AllocMsg.args).foldl (allocArgs s.cfg.entries) s.cfg.dynmems = ds
    at hrun hobjs hok
  refine ⟨⟨mq', { s.cfg with dynmems := ds }, s.live⟩, ?_, hholds, ?_, h.nodup, h.nonzero, hok,
    by simp⟩
  · simp only [ObjRun.step, hrun, Run.ok_bind]; rfl
  · have hexp := h.objs
    rw [← hobjs] at hexp
    rw [List.map_nil, Multiset.coe_nil, zero_add]
    exact hexp

/-- **The marked objects are removed**: nothing that is tracked changes. -/
theorem step_freeDynmem {s : ObjRun} {ms : List AllocMsg} (h : s.Inv ms) :
    ∃ s', s.step .freeDynmem = .ok s' ∧ s'.Inv ms := by
  obtain ⟨hrefs, hsame⟩ := freeDynmem_objs s.cfg
  have hR : ∀ d, Refs (UgTrain.freeDynmem s.cfg).entries d ↔ Refs s.cfg.entries d := by
    intro d; unfold Refs; rw [hrefs]
  have hA : ∀ ds c, Accepted (UgTrain.freeDynmem s.cfg).entries ds c ↔
      Accepted s.cfg.entries ds c := by
    intro ds c; unfold Accepted; rw [findDynmem_isSome, findDynmem_isSome]; simp only [hR]
  have hok := sameObjs_ok hsame h.ok
  refine ⟨⟨s.mq, UgTrain.freeDynmem s.cfg, s.live⟩, rfl, h.holds, ?_, h.nodup, h.nonzero,
    ⟨hok.aligned, fun d dm hd hne => (hR d).mpr (hok.refs d dm hd hne)⟩, fun m hm => ?_⟩
  · rw [sameObjs_allObjs hsame h.ok.aligned]; exact h.objs
  · exact (hA _ _).mpr ((sameObjs_accepted hsame).mpr (h.accepted m hm))

/-- **Values for new objects**: nothing that is tracked changes. -/
theorem step_allocDynmem {s : ObjRun} {ms : List AllocMsg} (h : s.Inv ms) :
    ∃ s', s.step .allocDynmem = .ok s' ∧ s'.Inv ms := by
  have hsame := allocDynmem_sameRefs s.cfg
  have hR : ∀ d, Refs (UgTrain.allocDynmem s.cfg).entries d ↔ Refs s.cfg.entries d := by
    intro d; unfold Refs; rw [hsame.refs]
  refine ⟨⟨s.mq, UgTrain.allocDynmem s.cfg, s.live⟩, rfl, h.holds, ?_, h.nodup, h.nonzero, ?_,
    fun m hm => ?_⟩
  · rw [hsame.dynmems]; exact h.objs
  · refine ⟨?_, fun d dm hd hne => (hR d).mpr (h.ok.refs d dm ?_ hne)⟩
    · rw [hsame.dynmems]; exact h.ok.aligned
    · rw [← hsame.dynmems]; exact hd
  · have hacc := h.accepted m hm
    unfold Accepted at hacc ⊢
    rw [findDynmem_isSome] at hacc ⊢
    rw [hsame.dynmems]
    simpa only [hR] using hacc

/-- A kick that changes no class. -/
theorem kick_self {cfg : CfgMem} {d i : Nat}
    (h : ∀ dm, cfg.dynmems[d]? = some dm → dm.kickObj i = dm) : cfg.kick d i = cfg := by
  have hmod : cfg.dynmems.modify d (·.kickObj i) = cfg.dynmems := by
    refine List.ext_getElem? fun e => ?_
    rw [List.getElem?_modify]
    split
    · rename_i hde
      cases hd : cfg.dynmems[e]? with
      | none => rfl
      | some dm => exact congrArg some (h dm (by rw [hde]; exact hd))
    · simp
  unfold CfgMem.kick
  rw [hmod]

/-- **An object is kicked**: its address leaves the vector of its class. -/
theorem step_kick {s : ObjRun} {ms : List AllocMsg} (h : s.Inv ms) (d i : Nat) :
    ∃ s', s.step (.kick d i) = .ok s' ∧ s'.Inv ms := by
  refine ⟨⟨s.mq, s.cfg.kick d i, s.live.map (·.kick (s.cfg.objAddr d i))⟩, rfl, ?_⟩
  cases ha : s.cfg.objAddr d i with
  | none =>
    -- There is no such object.
    have hsame : s.cfg.kick d i = s.cfg := by
      refine kick_self fun dm hd => ?_
      rw [CfgMem.objAddr, hd, Option.bind_some] at ha
      unfold DynMemEntry.kickObj
      rw [List.set_eq_of_length_le (by simpa using ha)]
    rw [hsame, kick_none]
    exact ⟨h.holds, h.objs, h.nodup, h.nonzero, h.ok, h.accepted⟩
  | some a =>
    obtain ⟨dm, hd, hi⟩ := Option.bind_eq_some_iff.mp ha
    by_cases h0 : a = 0
    · -- The object is marked already, and no live object has the address 0.
      subst h0
      have hsame : s.cfg.kick d i = s.cfg := by
        refine kick_self fun dm' hd' => ?_
        rw [hd] at hd'
        cases hd'
        exact kickObj_zero hi
      have hlive : s.live.map (·.kick (some 0)) = s.live := by
        conv => rhs; rw [← List.map_id s.live]
        refine List.map_congr_left fun o ho => ?_
        have h0 : ¬ some o.memAddr = some 0 := fun e => h.nonzero o ho (Option.some.inj e)
        simp only [LiveObj.kick, if_neg h0, id]
      rw [hsame, hlive]
      exact ⟨h.holds, h.objs, h.nodup, h.nonzero, h.ok, h.accepted⟩
    · have hmod : s.cfg.dynmems.modify d (·.kickObj i) = s.cfg.dynmems.set d (dm.kickObj i) := by
        rw [List.modify_eq_set_getElem?, hd]; rfl
      obtain ⟨⟨size, hc⟩, hok, hacc⟩ := kickObj_allObjs h.ok hd hi h0
      rw [← hmod] at hc hok hacc
      refine ⟨h.holds, ?_, ?_, ?_, hok, fun m hm => (hacc _).mpr (h.accepted m hm)⟩
      · have hobjs := h.objs
        rw [hc, Multiset.add_cons] at hobjs
        rw [ObjRun.expected, expected_kick]
        exact filter_of_cons (nodup_expected h.nodup) hobjs
      · rw [map_kick_memAddr]; exact h.nodup
      · intro o ho
        have hmem : o.memAddr ∈ (s.live.map (·.kick (some a))).map (·.memAddr) :=
          List.mem_map_of_mem ho
        rw [map_kick_memAddr] at hmem
        obtain ⟨o', ho', ha'⟩ := List.mem_map.mp hmem
        exact ha' ▸ h.nonzero o' ho'

/-! ## Runs -/

/-- **Every step keeps the invariant.** -/
theorem step_inv (s : ObjRun) (op : ObjOp) (h : ∃ ms, s.Inv ms) (hp : s.Proper op) :
    ∃ s', s.step op = .ok s' ∧ ∃ ms, s'.Inv ms := by
  obtain ⟨ms, h⟩ := h
  cases op with
  | alloc m behind ppos =>
    obtain ⟨s', hs, h'⟩ := step_alloc h behind ppos hp
    exact ⟨s', hs, _, h'⟩
  | free a =>
    obtain ⟨s', ms', hs, h'⟩ := step_free h hp
    exact ⟨s', hs, _, h'⟩
  | processMallocs =>
    obtain ⟨s', hs, h'⟩ := step_processMallocs h
    exact ⟨s', hs, _, h'⟩
  | freeDynmem =>
    obtain ⟨s', hs, h'⟩ := step_freeDynmem h
    exact ⟨s', hs, _, h'⟩
  | allocDynmem =>
    obtain ⟨s', hs, h'⟩ := step_allocDynmem h
    exact ⟨s', hs, _, h'⟩
  | kick d i =>
    obtain ⟨s', hs, h'⟩ := step_kick h d i
    exact ⟨s', hs, _, h'⟩

/-- No class has an object yet. -/
def CfgMem.NoObjs (cfg : CfgMem) : Prop := ∀ dm ∈ cfg.dynmems, dm.vMaddr = [] ∧ dm.vMsize = []

def ObjRun.init (mq : MQueue) (cfg : CfgMem) : ObjRun := ⟨mq, cfg, []⟩

theorem init_inv {mq : MQueue} {cfg : CfgMem} (hmq : mq.Fresh) (hcfg : cfg.NoObjs) :
    (ObjRun.init mq cfg).Inv [] := by
  have hobjs : ∀ dm ∈ cfg.dynmems, dm.objs = [] := by
    intro dm hdm
    rw [DynMemEntry.objs, (hcfg dm hdm).1]; rfl
  have hall : allObjs cfg.dynmems = [] := by
    unfold allObjs
    exact List.flatMap_eq_nil_iff.mpr hobjs
  refine ⟨hmq.holds, ?_, List.nodup_nil, by simp [ObjRun.init], ⟨?_, ?_⟩, by simp⟩
  · show _ + (allObjs cfg.dynmems : Multiset (Ptr × SizeT)) = _
    rw [hall]; rfl
  · intro dm hdm
    rw [DynMemEntry.Aligned, (hcfg dm hdm).1, (hcfg dm hdm).2]
  · intro d dm hd hne
    exact absurd (hobjs dm (List.mem_of_getElem? hd)) hne

/-- One class and one entry of it. -/
def CfgMem.oneClass (codeAddr : Ptr) : CfgMem where
  entries := [{ (default : CfgEntry) with dynmem := some 0 }]
  dynmems := [{ (default : DynMemEntry) with codeAddr := codeAddr }]
  ptrmems := []

instance (mq : MQueue) (m : AllocMsg) : Decidable (mq.Fits m) := inferInstanceAs (Decidable (_ < _))

instance (cfg : List CfgEntry) (dynmems : List DynMemEntry) (codeAddr : Ptr) :
    Decidable (Accepted cfg dynmems codeAddr) := inferInstanceAs (Decidable (_ = true))

instance (s : ObjRun) : ∀ op, Decidable (s.Proper op)
  | .alloc m _ _ => inferInstanceAs (Decidable (m.memAddr ≠ 0 ∧
      (∀ o ∈ s.live, o.memAddr ≠ m.memAddr) ∧ Accepted s.cfg.entries s.cfg.dynmems m.codeAddr ∧
      s.mq.Fits m))
  | .free memAddr => inferInstanceAs (Decidable (memAddr ≠ 0 ∧ ∃ o ∈ s.live, o.memAddr = memAddr))
  | .processMallocs | .freeDynmem | .allocDynmem | .kick _ _ => .isTrue trivial

/-- Two objects reach the class, a third one is still in the queue; one of the class and that one are
freed, the other one is kicked. -/
def ObjOp.threeObjs : List ObjOp :=
  [.alloc (HackMsg.allocMsg 0x20 7 0x400) [] 0, .alloc (HackMsg.allocMsg 0x40 7 0x400) [] 0,
    .processMallocs, .allocDynmem, .alloc (HackMsg.allocMsg 0x60 7 0x400) [] 0, .free 0x20,
    .kick 0 1, .freeDynmem, .free 0x60]

end UgTrain
