import UgTrain.AllocRules
import UgTrain.MemAddrs

/-!
# Hooked memory functions (`linuxhooking/memhooks.c`)

A hooked function calls libmemhack and the original function. The original one may call hooked
functions itself, as `g_malloc` calls `malloc` and `store_mem_addr` calls `realloc`: `no_hook` keeps
these away from libmemhack (`runAll_noHook`), so that each call of the game is seen once.

* `Hack` is libmemhack in the game. `sent` is what it has written into its FIFO.
* `Hack.Reports h objs`: the arrays of addresses hold the objects `objs`. What a call sends tells how
  they change (`run_told`).
* An allocation that fails is left out, and so is a write into the FIFO that fails. The first `calloc`,
  which comes from static memory, is one that libmemhack does not see.
-/

namespace UgTrain

open CLib

structure Hack where
  active : Bool
  config : List HackCfg
  /-- `mem_addrs` and what goes with it, of each entry. -/
  addrs : List MemAddrs
  noHook : Bool
  sent : List HackMsg

/-- A call of a hooked function. `inner` are the calls of hooked functions by the original function,
`memAddr` is what it returns, and `junk` what a `realloc` of `mem_addrs` leaves in new slots. -/
inductive HookCall where
  /-- `malloc`, `new`, `g_malloc`, `g_malloc0`, `g_slice_alloc`, `g_slice_alloc0` -/
  | malloc (c : Caller) (size : SizeT) (memAddr : Ptr) (junk : Nat → Ptr) (inner : List HookCall)
  /-- `calloc`, `g_malloc_n`, `g_malloc0_n` -/
  | calloc (c : Caller) (nmemb size : SizeT) (memAddr : Ptr) (junk : Nat → Ptr)
      (inner : List HookCall)
  | realloc (c : Caller) (ptr : Ptr) (size : SizeT) (memAddr : Ptr) (junk : Nat → Ptr)
      (inner : List HookCall)
  /-- `free`, `g_free`, `g_slice_free1` -/
  | free (ptr : Ptr) (inner : List HookCall)

namespace Hack

/-- `postprocess_malloc` -/
def postprocessMalloc (c : Caller) (size : SizeT) (memAddr : Ptr) (junk : Nat → Ptr) (h : Hack) :
    Except Fault Hack :=
  if h.active = false then .ok h
  else
    match UgTrain.postprocessMalloc c size h.config with
    | none => .ok h
    | some (i, codeAddr) =>
      match h.addrs[i]? with
      | none => .error .nullPointer
      | some cfg => do
        let cfg ← storeMemAddr junk memAddr cfg
        return { h with
          addrs := h.addrs.set i cfg
          sent := h.sent ++ [.malloc memAddr size codeAddr] }

/-- `preprocess_free` -/
def preprocessFree (memAddr : Ptr) (h : Hack) : Except Fault Hack :=
  if h.active = false then .ok h
  else do
    let (addrs, msgs) ← UgTrain.preprocessFree memAddr h.addrs
    return { h with addrs := addrs, sent := h.sent ++ msgs }

/-- `__HOOK_FUNCTION` -/
def hook (pre orig post : Hack → Except Fault Hack) (h : Hack) : Except Fault Hack :=
  if h.noHook then orig h
  else do
    let h ← pre { h with noHook := true }
    let h ← orig h
    let h ← post h
    return { h with noHook := false }

end Hack

mutual

def HookCall.run : HookCall → Hack → Except Fault Hack
  | .malloc c size memAddr junk inner =>
    Hack.hook .ok (HookCall.runAll inner) (Hack.postprocessMalloc c size memAddr junk)
  | .calloc c nmemb size memAddr junk inner =>
    Hack.hook .ok (HookCall.runAll inner) (Hack.postprocessMalloc c (nmemb * size) memAddr junk)
  | .realloc c ptr size memAddr junk inner =>
    Hack.hook (Hack.preprocessFree ptr) (HookCall.runAll inner)
      (Hack.postprocessMalloc c size memAddr junk)
  | .free ptr inner => Hack.hook (Hack.preprocessFree ptr) (HookCall.runAll inner) .ok

def HookCall.runAll : List HookCall → Hack → Except Fault Hack
  | [], h => .ok h
  | call :: calls, h => do
    let h ← call.run h
    HookCall.runAll calls h

end

/-! ## Calls from inside -/

section Inner

variable {h : Hack} {pre orig post : Hack → Except Fault Hack}

theorem hook_noHook (hn : h.noHook = true) : Hack.hook pre orig post h = orig h := by
  rw [Hack.hook, if_pos hn]

mutual

theorem run_noHook (hn : h.noHook = true) : ∀ call : HookCall, call.run h = .ok h
  | .malloc _ _ _ _ inner => by rw [HookCall.run, hook_noHook hn, runAll_noHook hn inner]
  | .calloc _ _ _ _ _ inner => by rw [HookCall.run, hook_noHook hn, runAll_noHook hn inner]
  | .realloc _ _ _ _ _ inner => by rw [HookCall.run, hook_noHook hn, runAll_noHook hn inner]
  | .free _ inner => by rw [HookCall.run, hook_noHook hn, runAll_noHook hn inner]

/-- **Calls from inside a hooked function** are not seen, however deep they go. -/
theorem runAll_noHook (hn : h.noHook = true) : ∀ calls : List HookCall,
    HookCall.runAll calls h = .ok h
  | [] => by rw [HookCall.runAll]
  | call :: calls => by
    rw [HookCall.runAll, run_noHook hn call, Run.ok_bind, runAll_noHook hn calls]

end

end Inner

/-! ## What messages tell -/

/-- The objects, once the game has sent the message. -/
def HackMsg.tell (objs : List (Ptr × SizeT)) : HackMsg → List (Ptr × SizeT)
  | .malloc memAddr size _ => (memAddr, size) :: objs
  | .free memAddr => objs.filter (·.1 ≠ memAddr)
  | .lib _ | .stackEnd _ => objs

/-- An address is new before its object is, and freed while it has one. -/
def HackMsg.News (objs : List (Ptr × SizeT)) : HackMsg → Prop
  | .malloc memAddr _ _ => memAddr ≠ 0 ∧ ∀ o ∈ objs, o.1 ≠ memAddr
  | .free memAddr => memAddr ≠ 0 ∧ ∃ o ∈ objs, o.1 = memAddr
  | .lib _ | .stackEnd _ => True

def tellAll (objs : List (Ptr × SizeT)) (ms : List HackMsg) : List (Ptr × SizeT) :=
  ms.foldl HackMsg.tell objs

def AllNews (objs : List (Ptr × SizeT)) : List HackMsg → Prop
  | [] => True
  | m :: ms => m.News objs ∧ AllNews (m.tell objs) ms

@[simp] theorem tellAll_append (objs : List (Ptr × SizeT)) (ms ms' : List HackMsg) :
    tellAll objs (ms ++ ms') = tellAll (tellAll objs ms) ms' :=
  List.foldl_append

theorem allNews_append {objs : List (Ptr × SizeT)} {ms ms' : List HackMsg} :
    AllNews objs (ms ++ ms') ↔ AllNews objs ms ∧ AllNews (tellAll objs ms) ms' := by
  induction ms generalizing objs with
  | nil => simp [AllNews, tellAll]
  | cons m ms ih =>
    rw [List.cons_append, AllNews, AllNews, ih, and_assoc]
    rfl

/-! ## What is reported -/

/-- The arrays of addresses hold the objects, each once, and have room for more. -/
structure Hack.Reports (h : Hack) (objs : List (Ptr × SizeT)) : Prop where
  live : ∃ ts, List.Forall₂ MemAddrs.Refines h.addrs ts ∧
    (ts.map Live.addrs).sum = (objs.map (·.1) : List Ptr) ∧ ∀ t ∈ ts, t.peak < 2 ^ 31
  doubled : ∀ cfg ∈ h.addrs, cfg.Doubled
  length : h.addrs.length = h.config.length
  nodup : (objs.map (·.1)).Nodup
  valid : ∀ o ∈ objs, addrInval < o.1

/-- Nothing but the arrays and the messages has changed. -/
structure Hack.Sends (h h' : Hack) (ms : List HackMsg) : Prop where
  active : h'.active = h.active
  config : h'.config = h.config
  noHook : h'.noHook = h.noHook
  sent : h'.sent = h.sent ++ ms

section Reports

variable {h h' h'' : Hack} {objs : List (Ptr × SizeT)} {a : Ptr} {ts : List Live}
  {ms ms' : List HackMsg} {i : Nat}

theorem Hack.Sends.refl (h : Hack) : h.Sends h [] := ⟨rfl, rfl, rfl, (List.append_nil _).symm⟩

theorem Hack.Sends.trans (h₁ : h.Sends h' ms) (h₂ : h'.Sends h'' ms') : h.Sends h'' (ms ++ ms') :=
  ⟨h₂.active.trans h₁.active, h₂.config.trans h₁.config, h₂.noHook.trans h₁.noHook, by
    rw [h₂.sent, h₁.sent, List.append_assoc]⟩

theorem Hack.Reports.of_addrs (hr : h.Reports objs) (ha : h'.addrs = h.addrs)
    (hc : h'.config = h.config) : h'.Reports objs :=
  ⟨by rw [ha]; exact hr.live, by rw [ha]; exact hr.doubled, by rw [ha, hc]; exact hr.length,
    hr.nodup, hr.valid⟩

theorem tracked_iff : Tracked a ts ↔ a ∈ (ts.map Live.addrs).sum := by
  induction ts with
  | nil => simp [Tracked]
  | cons t ts ih =>
    rw [List.map_cons, List.sum_cons, Multiset.mem_add, ← ih]
    simp [Tracked]

/-- One occurrence of the address goes. -/
theorem sum_freeLive : ((freeLive a ts).map Live.addrs).sum = (ts.map Live.addrs).sum.erase a := by
  induction ts with
  | nil => rfl
  | cons t ts ih =>
    rw [freeLive]
    split
    · rename_i hm
      rw [List.map_cons, List.map_cons, List.sum_cons, List.sum_cons, Live.free,
        Multiset.erase_add_left_pos _ hm]
    · rename_i hm
      rw [List.map_cons, List.map_cons, List.sum_cons, List.sum_cons, ih,
        Multiset.erase_add_right_neg _ hm]

theorem peak_freeLive (h : ∀ t ∈ ts, t.peak < 2 ^ 31) : ∀ t ∈ freeLive a ts, t.peak < 2 ^ 31 := by
  induction ts with
  | nil => exact h
  | cons t ts ih =>
    obtain ⟨ht, hts⟩ := List.forall_mem_cons.mp h
    rw [freeLive]
    split
    · exact List.forall_mem_cons.mpr ⟨ht, hts⟩
    · exact List.forall_mem_cons.mpr ⟨ht, ih hts⟩

theorem length_freeLive : (freeLive a ts).length = ts.length := by
  induction ts with
  | nil => rfl
  | cons t ts ih =>
    rw [freeLive]
    split
    · rfl
    · rw [List.length_cons, List.length_cons, ih]

/-- A free is told once, if the object was. -/
def freeMsgs (a : Ptr) (objs : List (Ptr × SizeT)) : List HackMsg :=
  if ∃ o ∈ objs, o.1 = a then [.free a] else []

theorem tell_freeMsgs (a : Ptr) (objs : List (Ptr × SizeT)) :
    tellAll objs (freeMsgs a objs) = objs.filter (·.1 ≠ a) := by
  unfold freeMsgs
  split
  · rfl
  · rename_i hno
    refine (List.filter_eq_self.mpr fun o ho => ?_).symm
    simpa using fun heq => hno ⟨o, ho, heq⟩

/-- **A free** is reported if the object was. -/
theorem preprocessFree_reports (ha : h.active = true) (hr : h.Reports objs) (a : Ptr) :
    ∃ h', h.preprocessFree a = .ok h' ∧ h.Sends h' (freeMsgs a objs) ∧
      h'.Reports (objs.filter (·.1 ≠ a)) := by
  obtain ⟨⟨ts, hts, hsum, hpeak⟩, hd, hlen, hnodup, hvalid⟩ := hr
  have hmem : Tracked a ts ↔ ∃ o ∈ objs, o.1 = a := by
    rw [tracked_iff, hsum, Multiset.mem_coe, List.mem_map]
  have hobjs : ((objs.map (·.1) : List Ptr) : Multiset Ptr).erase a =
      ((objs.filter (·.1 ≠ a)).map (·.1) : List Ptr) := by
    have hfilter : objs.filter ((· != a) ∘ (·.1)) = objs.filter (·.1 ≠ a) :=
      List.filter_congr fun o _ => Bool.eq_iff_iff.mpr (by simp)
    rw [Multiset.coe_erase, hnodup.erase_eq_filter, List.filter_map, hfilter]
  have hnodup' : ((objs.filter (·.1 ≠ a)).map (·.1)).Nodup :=
    hnodup.sublist (List.filter_sublist.map _)
  have hvalid' : ∀ o ∈ objs.filter (·.1 ≠ a), addrInval < o.1 :=
    fun o ho => hvalid o (List.mem_filter.mp ho).1
  unfold Hack.preprocessFree UgTrain.preprocessFree
  rw [if_neg (by simp [ha])]
  by_cases h0 : a = 0
  · subst h0
    have hno : ¬ ∃ o ∈ objs, o.1 = 0 := by
      rintro ⟨o, ho, h0⟩
      exact (addrInval_lt_iff.mp (hvalid o ho)).1 h0
    have hself : objs.filter (·.1 ≠ 0) = objs := by
      rw [← tell_freeMsgs, freeMsgs, if_neg hno]
      rfl
    rw [if_pos rfl, freeMsgs, if_neg hno, hself]
    exact ⟨_, rfl, ⟨rfl, rfl, rfl, rfl⟩, ⟨ts, hts, hsum, hpeak⟩, hd, hlen, hnodup, hvalid⟩
  · obtain ⟨addrs, hc, hfree, hds⟩ := clearAddr_refines hts h0
    rw [if_neg h0, hc]
    refine ⟨_, rfl, ⟨rfl, rfl, rfl, ?_⟩, ⟨_, hfree, ?_, peak_freeLive hpeak⟩, hds hd, ?_, hnodup',
      hvalid'⟩
    · unfold freeMsgs
      simp only [decide_eq_true_eq, hmem]
    · rw [sum_freeLive, hsum, hobjs]
    · rw [hfree.length_eq, ← hlen, hts.length_eq]
      exact length_freeLive

/-- The messages of an allocation, and where their code address is from. -/
theorem mallocMsgs_cases (c : Caller) (a : Ptr) (size : SizeT) (config : List HackCfg) :
    (postprocessMalloc c size config = none ∧ mallocMsgs c a size config = []) ∨
      ∃ i codeAddr, postprocessMalloc c size config = some (i, codeAddr) ∧
        mallocMsgs c a size config = [.malloc a size codeAddr] := by
  unfold mallocMsgs
  cases h : postprocessMalloc c size config with
  | none => exact .inl ⟨rfl, rfl⟩
  | some x => exact .inr ⟨x.1, x.2, rfl, rfl⟩

theorem sum_modify_store (hi : i < ts.length) :
    ((ts.modify i (Live.store a)).map Live.addrs).sum = a ::ₘ (ts.map Live.addrs).sum := by
  induction ts generalizing i with
  | nil => exact absurd hi (by simp)
  | cons t ts ih =>
    cases i with
    | zero =>
      rw [List.modify_zero_cons, List.map_cons, List.map_cons, List.sum_cons, List.sum_cons,
        Live.store, Multiset.cons_add]
    | succ i =>
      rw [List.modify_succ_cons, List.map_cons, List.map_cons, List.sum_cons, List.sum_cons,
        ih (by simpa using hi), Multiset.add_cons]

/-- An entry holds no more addresses than there are objects. -/
theorem card_le_sum {t : Live} (ht : t ∈ ts) : t.addrs.card ≤ (ts.map Live.addrs).sum.card :=
  Multiset.card_le_card (List.single_le_sum (fun _ _ => Multiset.zero_le _) _
    (List.mem_map_of_mem ht))

theorem peak_modify_store {n : Nat} (a : Ptr) (i : Nat) (h : ∀ t ∈ ts, t.peak < n)
    (hc : (ts.map Live.addrs).sum.card + 1 < n) :
    ∀ t ∈ ts.modify i (Live.store a), t.peak < n := by
  intro t ht
  obtain ⟨j, hj⟩ := List.mem_iff_getElem?.mp ht
  rw [List.getElem?_modify] at hj
  obtain ⟨t₀, ht₀, rfl⟩ := Option.map_eq_some_iff.mp hj
  have hm := List.mem_of_getElem? ht₀
  split
  · have hcard := card_le_sum hm
    exact max_lt (h t₀ hm) (by omega)
  · exact h t₀ hm

/-- **An allocation** is reported if a rule matches. -/
theorem postprocessMalloc_reports (ha : h.active = true) (hr : h.Reports objs) (c : Caller)
    (size : SizeT) (junk : Nat → Ptr) (hv : addrInval < a) (hnew : ∀ o ∈ objs, o.1 ≠ a)
    (hroom : objs.length + 1 < 2 ^ 31) :
    ∃ h', h.postprocessMalloc c size a junk = .ok h' ∧
      h.Sends h' (mallocMsgs c a size h.config) ∧
      h'.Reports (tellAll objs (mallocMsgs c a size h.config)) := by
  obtain ⟨⟨ts, hts, hsum, hpeak⟩, hd, hlen, hnodup, hvalid⟩ := hr
  unfold Hack.postprocessMalloc
  rw [if_neg (by simp [ha])]
  rcases mallocMsgs_cases c a size h.config with ⟨hnone, hms⟩ | ⟨i, codeAddr, hsome, hms⟩
  · rw [hnone, hms]
    exact ⟨h, rfl, .refl h, ⟨ts, hts, hsum, hpeak⟩, hd, hlen, hnodup, hvalid⟩
  · obtain ⟨cfg, hi, -⟩ := postprocessMalloc_selects hsome
    have hlt : i < h.addrs.length := by
      rw [hlen]
      exact (List.getElem?_eq_some_iff.mp hi).1
    have hcfg := List.getElem?_eq_getElem hlt
    obtain ⟨t, ht, hrt⟩ := Pointwise.getElem? hts.flip hcfg
    obtain ⟨m', hstore, hr', hd'⟩ :=
      store_refines junk hrt (hd _ (List.getElem_mem hlt)) hv (hpeak t (List.mem_of_getElem? ht))
    have hcard : (ts.map Live.addrs).sum.card = objs.length := by
      rw [hsum, Multiset.coe_card, List.length_map]
    simp only [hsome, hms, hcfg, hstore, Run.ok_bind]
    have hset : List.Forall₂ MemAddrs.Refines (h.addrs.set i m') (ts.modify i (Live.store a)) :=
      Pointwise.set_modify hts fun t' ht' => by
        cases ht.symm.trans ht'
        exact hr'
    refine ⟨_, rfl, ⟨rfl, rfl, rfl, rfl⟩, ⟨_, hset, ?_, peak_modify_store a i hpeak (by omega)⟩,
      fun m hm => ?_, ?_, ?_, ?_⟩
    · rw [sum_modify_store (by rw [← hts.length_eq]; exact hlt), hsum]
      rfl
    · rcases List.mem_or_eq_of_mem_set hm with hm | rfl
      · exact hd m hm
      · exact hd'
    · rw [List.length_set]
      exact hlen
    · refine List.nodup_cons.mpr ⟨fun hm => ?_, hnodup⟩
      obtain ⟨o, ho, heq⟩ := List.mem_map.mp hm
      exact hnew o ho heq
    · exact List.forall_mem_cons.mpr ⟨hv, hvalid⟩

end Reports

/-! ## The heap of the game -/

/-- A block of the game; `reported` if a rule matched its allocation. -/
structure HeapObj where
  memAddr : Ptr
  memSize : SizeT
  reported : Bool
  deriving DecidableEq, Repr

/-- The game, with its blocks. -/
structure Game where
  hack : Hack
  heap : List HeapObj

namespace Game

/-- The block of an allocation. -/
def newObj (g : Game) (c : Caller) (size : SizeT) (memAddr : Ptr) : HeapObj :=
  ⟨memAddr, size, (postprocessMalloc c size g.hack.config).isSome⟩

def without (g : Game) (ptr : Ptr) : List HeapObj := g.heap.filter (·.memAddr ≠ ptr)

/-- The blocks after a call. -/
def heapAfter (g : Game) : HookCall → List HeapObj
  | .malloc c size memAddr _ _ => g.newObj c size memAddr :: g.heap
  | .calloc c nmemb size memAddr _ _ => g.newObj c (nmemb * size) memAddr :: g.heap
  | .realloc c ptr size memAddr _ _ => g.newObj c size memAddr :: g.without ptr
  | .free ptr _ => g.without ptr

def call (g : Game) (call : HookCall) : Except Fault Game := do
  let hack ← call.run g.hack
  return ⟨hack, g.heapAfter call⟩

/-- The game has no block yet. libmemhack has read its config and told the stack end. -/
def start (config : List HackCfg) (stackEnd : Ptr) : Game where
  hack := ⟨true, config, List.replicate config.length .init, false, [.stackEnd stackEnd]⟩
  heap := []

/-- The blocks that were reported. -/
def reported (heap : List HeapObj) : List (Ptr × SizeT) :=
  (heap.filter (·.reported)).map fun o => (o.memAddr, o.memSize)

/-- The allocator returns an address that is not in use, and the game holds fewer than 2^31 blocks:
the array of an entry cannot grow beyond that. -/
def NewAddr (heap : List HeapObj) (memAddr : Ptr) : Prop :=
  addrInval < memAddr ∧ (∀ o ∈ heap, o.memAddr ≠ memAddr) ∧ heap.length + 1 < 2 ^ 31

def Proper (g : Game) : HookCall → Prop
  | .malloc _ _ memAddr _ _ | .calloc _ _ _ memAddr _ _ => NewAddr g.heap memAddr
  | .realloc _ ptr _ memAddr _ _ => NewAddr (g.without ptr) memAddr
  | .free _ _ => True

instance (heap : List HeapObj) (memAddr : Ptr) : Decidable (NewAddr heap memAddr) :=
  inferInstanceAs (Decidable (_ ∧ (∀ o ∈ heap, _) ∧ _))

instance (g : Game) : ∀ call, Decidable (g.Proper call)
  | .malloc _ _ memAddr _ _ => inferInstanceAs (Decidable (NewAddr g.heap memAddr))
  | .calloc _ _ _ memAddr _ _ => inferInstanceAs (Decidable (NewAddr g.heap memAddr))
  | .realloc _ ptr _ memAddr _ _ => inferInstanceAs (Decidable (NewAddr (g.without ptr) memAddr))
  | .free _ _ => .isTrue trivial

/-- libmemhack is at work, and its arrays hold the blocks that were reported. -/
structure Inv (g : Game) : Prop where
  active : g.hack.active = true
  noHook : g.hack.noHook = false
  reports : g.hack.Reports (reported g.heap)

end Game

section Calls

variable {g : Game} {h : Hack} {heap : List HeapObj} {objs : List (Ptr × SizeT)} {ms : List HackMsg}
  {config : List HackCfg} {c : Caller} {size : SizeT} {a : Ptr}

/-- A message about an allocation has a code address of the config, and none is about a library. -/
def HackMsg.From (config : List HackCfg) : HackMsg → Prop
  | .malloc _ _ codeAddr => codeAddr ∈ config.flatMap (·.codeAddrs)
  | .free _ => True
  | .lib _ => False
  | .stackEnd e => e ≠ 0

theorem mallocMsgs_from (c : Caller) (a : Ptr) (size : SizeT) (config : List HackCfg) :
    ∀ m ∈ mallocMsgs c a size config, m.From config := by
  intro m hm
  rcases mallocMsgs_cases c a size config with ⟨-, hms⟩ | ⟨i, codeAddr, hsome, hms⟩
  · rw [hms] at hm
    cases hm
  · rw [hms, List.mem_singleton] at hm
    subst hm
    obtain ⟨cfg, hi, hsel⟩ := postprocessMalloc_selects hsome
    refine List.mem_flatMap.mpr ⟨cfg, List.mem_of_getElem? hi, ?_⟩
    rcases hsel with ⟨-, rfl⟩ | ⟨-, grow, hg, rfl⟩
    · exact List.mem_cons_self
    · exact List.mem_cons_of_mem _ (List.mem_map_of_mem (Option.mem_toList.mpr hg))

theorem tell_mallocMsgs (heap : List HeapObj) : tellAll (Game.reported heap)
    (mallocMsgs c a size g.hack.config) = Game.reported (g.newObj c size a :: heap) := by
  rcases mallocMsgs_cases c a size g.hack.config with ⟨hnone, hms⟩ | ⟨i, codeAddr, hsome, hms⟩
  · rw [hms, Game.newObj, hnone]
    rfl
  · rw [hms, Game.newObj, hsome]
    rfl

theorem reported_without (ptr : Ptr) :
    Game.reported (g.without ptr) = (Game.reported g.heap).filter (·.1 ≠ ptr) := by
  unfold Game.reported Game.without
  rw [List.filter_map, List.filter_filter, List.filter_filter]
  congr 1
  exact List.filter_congr fun o _ => Bool.and_comm _ _

theorem mem_reported {o : Ptr × SizeT} (h : o ∈ Game.reported heap) :
    ∃ o' ∈ heap, o'.memAddr = o.1 := by
  obtain ⟨o', ho', rfl⟩ := List.mem_map.mp h
  exact ⟨o', (List.mem_filter.mp ho').1, rfl⟩

theorem length_reported (heap : List HeapObj) : (Game.reported heap).length ≤ heap.length := by
  unfold Game.reported
  rw [List.length_map]
  exact List.length_filter_le _ _

theorem mallocMsgs_news (hv : addrInval < a) (hnew : ∀ o ∈ objs, o.1 ≠ a) :
    AllNews objs (mallocMsgs c a size config) := by
  rcases mallocMsgs_cases c a size config with ⟨-, hms⟩ | ⟨i, codeAddr, -, hms⟩
  · rw [hms]
    trivial
  · rw [hms]
    exact ⟨⟨(addrInval_lt_iff.mp hv).1, hnew⟩, trivial⟩

theorem freeMsgs_news (hvalid : ∀ o ∈ objs, addrInval < o.1) : AllNews objs (freeMsgs a objs) := by
  unfold freeMsgs
  split
  · rename_i hex
    obtain ⟨o, ho, rfl⟩ := hex
    exact ⟨⟨(addrInval_lt_iff.mp (hvalid o ho)).1, o, ho, rfl⟩, trivial⟩
  · trivial

theorem freeMsgs_from : ∀ m ∈ freeMsgs a objs, m.From config := by
  intro m hm
  unfold freeMsgs at hm
  split at hm
  · rw [List.mem_singleton.mp hm]
    trivial
  · cases hm

/-- What libmemhack does around a call that the game makes. -/
theorem hook_game {pre orig post : Hack → Except Fault Hack} {h₁ h₂ : Hack} (hn : h.noHook = false)
    (hpre : pre { h with noHook := true } = .ok h₁) (horig : orig h₁ = .ok h₁)
    (hpost : post h₁ = .ok h₂) : Hack.hook pre orig post h = .ok { h₂ with noHook := false } := by
  rw [Hack.hook, if_neg (by simp [hn]), hpre, Run.ok_bind, horig, Run.ok_bind, hpost]
  rfl

/-- An allocation, apart from the hook. -/
theorem alloc_game {h : Hack} (hcfg : h.config = g.hack.config) (ha : h.active = true)
    (hr : h.Reports (Game.reported heap)) (c : Caller) (size : SizeT) (junk : Nat → Ptr)
    (hnew : Game.NewAddr heap a) : ∃ h', h.postprocessMalloc c size a junk = .ok h' ∧
      h.Sends h' (mallocMsgs c a size g.hack.config) ∧
      h'.Reports (Game.reported (g.newObj c size a :: heap)) ∧
      AllNews (Game.reported heap) (mallocMsgs c a size g.hack.config) := by
  obtain ⟨hv, hne, hlen⟩ := hnew
  have hne' : ∀ o ∈ Game.reported heap, o.1 ≠ a := by
    intro o ho
    obtain ⟨o', ho', heq⟩ := mem_reported ho
    exact heq ▸ hne o' ho'
  have hlen' := length_reported heap
  obtain ⟨h', hok, hs, hr'⟩ := postprocessMalloc_reports ha hr c size junk hv hne' (by omega)
  rw [hcfg] at hs hr'
  rw [tell_mallocMsgs] at hr'
  exact ⟨h', hok, hs, hr', mallocMsgs_news hv hne'⟩

/-- A free, apart from the hook. -/
theorem free_game {h : Hack} (ha : h.active = true) (hr : h.Reports (Game.reported g.heap))
    (ptr : Ptr) : ∃ h', h.preprocessFree ptr = .ok h' ∧
      h.Sends h' (freeMsgs ptr (Game.reported g.heap)) ∧ h'.Reports (Game.reported (g.without ptr)) := by
  obtain ⟨h', hok, hs, hr'⟩ := preprocessFree_reports ha hr ptr
  rw [← reported_without] at hr'
  exact ⟨h', hok, hs, hr'⟩

/-- **A call of the game** is reported as far as rules match: what libmemhack sends tells how the
blocks that were reported change. -/
theorem call_reports (hg : g.Inv) {call : HookCall} (hp : g.Proper call) :
    ∃ g' ms, g.call call = .ok g' ∧ g'.Inv ∧ g'.hack.config = g.hack.config ∧
      g'.hack.sent = g.hack.sent ++ ms ∧ (∀ m ∈ ms, m.From g.hack.config) ∧
      AllNews (Game.reported g.heap) ms ∧
      tellAll (Game.reported g.heap) ms = Game.reported g'.heap := by
  obtain ⟨ha, hn, hr⟩ := hg
  have hr₀ : ({ g.hack with noHook := true } : Hack).Reports (Game.reported g.heap) :=
    hr.of_addrs rfl rfl
  have hin : ∀ {h : Hack} {ms : List HackMsg}, ({ g.hack with noHook := true } : Hack).Sends h ms →
      ∀ inner, HookCall.runAll inner h = .ok h := fun hs inner => runAll_noHook hs.noHook inner
  -- An allocation, and the same behind a free.
  have halloc : ∀ c size memAddr junk inner, Game.NewAddr g.heap memAddr →
      ∃ h' ms, Hack.hook .ok (HookCall.runAll inner) (Hack.postprocessMalloc c size memAddr junk)
          g.hack = .ok h' ∧ (Game.mk h' (g.newObj c size memAddr :: g.heap)).Inv ∧
        h'.config = g.hack.config ∧ h'.sent = g.hack.sent ++ ms ∧
        (∀ m ∈ ms, m.From g.hack.config) ∧ AllNews (Game.reported g.heap) ms ∧
        tellAll (Game.reported g.heap) ms = Game.reported (g.newObj c size memAddr :: g.heap) := by
    intro c size memAddr junk inner hnew
    obtain ⟨h', hok, hs, hr', hnews⟩ :=
      alloc_game (h := { g.hack with noHook := true }) rfl ha hr₀ c size junk hnew
    exact ⟨_, _, hook_game hn rfl (hin (.refl _) inner) hok,
      ⟨hs.active.trans ha, rfl, hr'.of_addrs rfl rfl⟩, hs.config, hs.sent, mallocMsgs_from _ _ _ _,
      hnews, tell_mallocMsgs _⟩
  have hvalid := hr.valid
  cases call with
  | malloc c size memAddr junk inner =>
    obtain ⟨h', ms, hok, hinv, hrest⟩ := halloc c size memAddr junk inner hp
    refine ⟨_, ms, ?_, hinv, hrest⟩
    rw [Game.call, HookCall.run, hok]
    rfl
  | calloc c nmemb size memAddr junk inner =>
    obtain ⟨h', ms, hok, hinv, hrest⟩ := halloc c (nmemb * size) memAddr junk inner hp
    refine ⟨_, ms, ?_, hinv, hrest⟩
    rw [Game.call, HookCall.run, hok]
    rfl
  | free ptr inner =>
    obtain ⟨h', hok, hs, hr'⟩ := free_game (h := { g.hack with noHook := true }) ha hr₀ ptr
    refine ⟨⟨{ h' with noHook := false }, g.without ptr⟩, freeMsgs ptr (Game.reported g.heap), ?_,
      ⟨hs.active.trans ha, rfl, hr'.of_addrs rfl rfl⟩, hs.config, hs.sent, freeMsgs_from,
      freeMsgs_news hvalid, ?_⟩
    · rw [Game.call, HookCall.run, hook_game hn hok (hin hs inner) rfl]
      rfl
    · rw [tell_freeMsgs, reported_without]
  | realloc c ptr size memAddr junk inner =>
    obtain ⟨h₁, hok₁, hs₁, hr₁⟩ := free_game (h := { g.hack with noHook := true }) ha hr₀ ptr
    obtain ⟨h₂, hok₂, hs₂, hr₂, hnews₂⟩ :=
      alloc_game hs₁.config (hs₁.active.trans ha) hr₁ c size junk hp
    have hs := hs₁.trans hs₂
    refine ⟨⟨{ h₂ with noHook := false }, g.newObj c size memAddr :: g.without ptr⟩, _, ?_,
      ⟨hs.active.trans ha, rfl, hr₂.of_addrs rfl rfl⟩, hs.config, hs.sent, ?_, ?_, ?_⟩
    · rw [Game.call, HookCall.run, hook_game hn hok₁ (hin hs₁ inner) hok₂]
      rfl
    · intro m hm
      rcases List.mem_append.mp hm with hm | hm
      · exact freeMsgs_from m hm
      · exact mallocMsgs_from _ _ _ _ m hm
    · rw [allNews_append, tell_freeMsgs, ← reported_without]
      exact ⟨freeMsgs_news hvalid, hnews₂⟩
    · rw [tellAll_append, tell_freeMsgs, ← reported_without, tell_mallocMsgs]

theorem start_inv (config : List HackCfg) (stackEnd : Ptr) : (Game.start config stackEnd).Inv := by
  obtain ⟨hr, hd⟩ := hackRun_init config.length
  refine ⟨rfl, rfl, ⟨_, hr.config, ?_, fun t ht => ?_⟩, hd, List.length_replicate, List.nodup_nil, ?_⟩
  · show ((List.replicate config.length Live.none).map Live.addrs).sum = _
    rw [List.map_replicate, List.sum_replicate]
    exact nsmul_zero _
  · rw [List.eq_of_mem_replicate ht]
    decide
  · exact fun o ho => absurd ho List.not_mem_nil

/-- The arrays hold the blocks that were reported, and so does what was sent, message by message. -/
structure Game.Told (g : Game) : Prop where
  inv : g.Inv
  news : AllNews [] g.hack.sent
  told : tellAll [] g.hack.sent = Game.reported g.heap

theorem call_told (hg : g.Told) {call : HookCall} (hp : g.Proper call) :
    ∃ g', g.call call = .ok g' ∧ g'.Told := by
  obtain ⟨g', ms, hok, hinv, -, hsent, -, hnews, htell⟩ := call_reports hg.inv hp
  refine ⟨g', hok, hinv, ?_, ?_⟩
  · rw [hsent, allNews_append, hg.told]
    exact ⟨hg.news, hnews⟩
  · rw [hsent, tellAll_append, hg.told, htell]

/-- **libmemhack over whole runs.** However the game calls hooked functions, and however these call each
other: as long as its allocator works and it holds fewer than 2^31 blocks, no call fails, and the
messages and the arrays of addresses tell of the blocks that were reported and not freed since. -/
theorem run_told {calls : List HookCall} {stackEnd : Ptr}
    (hp : Run.Each Game.call Game.Proper (.start config stackEnd) calls) :
    Run.Always Game.call Game.Told (.start config stackEnd) calls :=
  Run.always_of_each (fun _ _ hg hp => call_told hg hp)
    ⟨start_inv config stackEnd, ⟨trivial, trivial⟩, rfl⟩ hp

/-- A block of a class, another one of the same code that has no rule, the move of the first one, and
the free of the other one. The first `malloc` calls a hooked function inside. -/
def HookCall.grown : List HookCall :=
  [.malloc (.atEight 0x700) 96 0x20 (fun _ => 0) [.free 0x30 []],
    .calloc (.atEight 0x700) 2 32 0x30 (fun _ => 0) [],
    .realloc (.atEight 0x700) 0x20 96 0x60 (fun _ => 0) [], .free 0x30 []]

theorem run_told_example :
    (Run.run Game.call (.start [.growing] 0x7000) HookCall.grown).map (·.hack.sent) =
      .ok [.stackEnd 0x7000, .malloc 0x20 96 0x700, .free 0x20, .malloc 0x60 96 0x700] ∧
    Run.Always Game.call Game.Told (.start [.growing] 0x7000) HookCall.grown :=
  ⟨by decide +kernel, run_told (by decide +kernel)⟩

end Calls

end UgTrain
