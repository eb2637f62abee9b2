import UgTrain.DirectMem

/-!
# A cycle is one without caches

Function by function: what a part of a cycle leaves as events, done directly on the memory that is seen,
gives the memory that is seen afterwards (`Sim`). `processActCfg_direct` puts this together: the events of a
cycle, done directly on the memory of the game, give the memory of the game after the cycle.
-/

namespace UgTrain

open CLib WriteBack

/-- The events that are left give what is seen then. `P` holds of the pointer that was followed last. -/
def Sim (chunk : Nat) (opt : Options) (base : MemType → Option Ptr) (P : Ptr → Prop)
    (view : Ptr → UInt8) (s s' : ProcState) : Prop :=
  ∀ ptr, P ptr → ∃ evs view' ptr', P ptr' ∧ s'.events = s.events ++ evs ∧
    Direct.replay opt ⟨view, ptr⟩ evs = some ⟨view', ptr'⟩ ∧ s'.Cached chunk opt base view'

/-- An entry is processed at `memOffs`, where its caches and those of its checks are. -/
structure AtPlace (opt : Options) (base : MemType → Option Ptr) (P : Ptr → Prop) (e : Nat)
    (slot : Option Nat) (en : CfgEntry) (memOffs : Ptr) : Prop where
  entry : ∃ en₀, opt.entries[e]? = some en₀ ∧ en₀.shape = en.shape
  addr : ∀ ptr, P ptr → opt.addr? ptr e slot = some (memOffs + en.addr)
  cache : en.type.isCstr = false → ∃ r c, en.cache = some r ∧ base r.mem = some memOffs ∧
    opt.Uses r ∧ opt.caches.get? r = some c ∧ en.cacheData = en.addr - c.offs
  text : en.type.isCstr = true → en.cache = none
  check : ∀ chk ∈ en.checks.getD [], ∀ r, chk.cache = some r → base r.mem = some memOffs ∧ opt.Uses r

section Sim

variable {chunk : Nat} {opt : Options} {base : MemType → Option Ptr} {P : Ptr → Prop}
  {view : Ptr → UInt8} {s s₁ s' : ProcState}

theorem sim_of_cached (h : s'.Cached chunk opt base view) (he : s'.events = s.events) :
    Sim chunk opt base P view s s' :=
  fun ptr hP => ⟨[], view, ptr, hP, by rw [he, List.append_nil], rfl, h⟩

/-- Nothing has happened before. -/
theorem sim_of_quiet (he : s₁.events = s.events) (h : Sim chunk opt base P view s₁ s') :
    Sim chunk opt base P view s s' := by
  intro ptr hP
  obtain ⟨evs, view', ptr', hP', he', hr, hc⟩ := h ptr hP
  exact ⟨evs, view', ptr', hP', by rw [he', he], hr, hc⟩

theorem sim_trans (h₁ : Sim chunk opt base P view s s₁)
    (h₂ : ∀ view₁, s₁.Cached chunk opt base view₁ → Sim chunk opt base P view₁ s₁ s') :
    Sim chunk opt base P view s s' := by
  intro ptr hP
  obtain ⟨evs₁, view₁, ptr₁, hP₁, he₁, hr₁, hc₁⟩ := h₁ ptr hP
  obtain ⟨evs₂, view₂, ptr₂, hP₂, he₂, hr₂, hc₂⟩ := h₂ view₁ hc₁ ptr₁ hP₁
  refine ⟨evs₁ ++ evs₂, view₂, ptr₂, hP₂, by rw [he₂, he₁, List.append_assoc], ?_, hc₂⟩
  rw [replay_append, hr₁]
  exact hr₂

/-- One event. -/
theorem sim_event {ev : ProcEvent} {view' : Ptr → UInt8} (he : s'.events = s.events ++ [ev])
    (hr : ∀ ptr, P ptr → Direct.step opt ⟨view, ptr⟩ ev = some ⟨view', ptr⟩)
    (hc : s'.Cached chunk opt base view') : Sim chunk opt base P view s s' := by
  intro ptr hP
  refine ⟨[ev], view', ptr, hP, he, ?_, hc⟩
  show [ev].foldlM (Direct.step opt) ⟨view, ptr⟩ = _
  rw [List.foldlM_cons, hr ptr hP]
  rfl

/-! ## Checks -/

theorem alike_modifyVals (h : opt.Alike s.opt) {e : Nat} {f : EntryVals → EntryVals}
    (hf : ∀ en, s.opt.entries[e]? = some en → (f en.vals).dims = en.vals.dims) :
    opt.Alike (s.modifyVals e f).opt :=
  ⟨h.same.trans (same_modifyVals hf), h.offs, h.addrs⟩

theorem cached_emit (h : s.Cached chunk opt base view) (ev : ProcEvent) :
    (s.emit ev).Cached chunk opt base view :=
  h.of_values rfl rfl h.alike

theorem cached_setBuf (h : s.Cached chunk opt base view) (buf : Value) :
    (s.setBuf buf).Cached chunk opt base view :=
  h.of_values rfl rfl h.alike

/-- An object is kicked. -/
theorem cached_kick (h : s.Cached chunk opt base view) (d : Nat) :
    (s.modifyDynmem d fun dm => dm.kickObj dm.objIdx).Cached chunk opt base view := by
  refine h.of_values rfl rfl ⟨?_, h.alike.offs, fun d' dm i a hd ha h0 => ?_⟩
  · exact h.alike.same.trans (same_modifyDynmem fun dm => shape_kickObj dm _)
  · rw [show (s.modifyDynmem d fun dm => dm.kickObj dm.objIdx).opt.dynmems =
      s.opt.dynmems.modify d fun dm => dm.kickObj dm.objIdx from rfl, List.getElem?_modify] at hd
    obtain ⟨dm₁, hd₁, rfl⟩ := Option.map_eq_some_iff.mp hd
    refine h.alike.addrs d' dm₁ i a hd₁ ?_ h0
    split at ha
    · rw [DynMemEntry.kickObj, List.getElem?_set] at ha
      split at ha
      · split at ha
        · cases ha
          exact absurd rfl h0
        · cases ha
      · exact ha
    · exact ha

theorem cached_objIdx (h : s.Cached chunk opt base view) (d i : Nat) :
    (s.modifyDynmem d fun dm => { dm with objIdx := i }).Cached chunk opt base view := by
  refine h.of_values rfl rfl ⟨?_, h.alike.offs, fun d' dm k a hd ha h0 => ?_⟩
  · exact h.alike.same.trans (same_modifyDynmem fun dm => rfl)
  · rw [show (s.modifyDynmem d fun dm => { dm with objIdx := i }).opt.dynmems =
      s.opt.dynmems.modify d fun dm => { dm with objIdx := i } from rfl, List.getElem?_modify] at hd
    obtain ⟨dm₁, hd₁, rfl⟩ := Option.map_eq_some_iff.mp hd
    refine h.alike.addrs d' dm₁ k a hd₁ ?_ h0
    split at ha <;> exact ha

/-- **Checks** only fill caches. -/
theorem processChecks_cached (hA : opt.Apart chunk base) (hch : chunk ≤ 2 ^ 64)
    {dynmem : Option Nat} {memOffs : Ptr} {chks : List CheckEntry} {chkBuf : Value} {b : Bool}
    (hc : ∀ chk ∈ chks, ∀ r, chk.cache = some r → base r.mem = some memOffs ∧ opt.Uses r)
    (h : s.Cached chunk opt base view)
    (hp : processChecks chunk dynmem memOffs chks chkBuf s = .ok (b, s')) :
    s'.Cached chunk opt base view ∧ s'.events = s.events ∧
      ∀ r, s.opt.caches.Loaded r → s'.opt.caches.Loaded r := by
  induction chks generalizing chkBuf s with
  | nil =>
    cases hp
    exact ⟨h, rfl, fun _ hl => hl⟩
  | cons chk chks ih =>
    obtain ⟨hchk, hchks⟩ := List.forall_mem_cons.mp hc
    unfold processChecks at hp
    split at hp
    · cases hp
      exact ⟨h, rfl, fun _ hl => hl⟩
    · split at hp
      · exact ih hchks h hp
      · obtain ⟨⟨v, s₁⟩, hv, hp⟩ := Run.bind_eq_ok.mp hp
        -- The value to be checked may come from a cache.
        have h₁ : s₁.Cached chunk opt base view ∧ s₁.events = s.events ∧
            ∀ r, s.opt.caches.Loaded r → s₁.opt.caches.Loaded r := by
          unfold checkValue at hv
          split at hv
          · obtain ⟨b', -, hv⟩ := Run.bind_eq_ok.mp hv
            cases hv
            exact ⟨h, rfl, fun _ hl => hl⟩
          · split at hv
            · cases hv
              exact ⟨h, rfl, fun _ hl => hl⟩
            · cases hcstr : chk.type.isCstr with
              | true =>
                unfold fillCacheAndBuf at hv
                rw [if_pos hcstr] at hv
                cases hv
                exact ⟨h, rfl, fun _ hl => hl⟩
              | false =>
                cases hr : chk.cache with
                | none =>
                  unfold fillCacheAndBuf at hv
                  rw [hcstr, hr] at hv
                  cases hv
                | some r =>
                  rw [hr] at hv
                  obtain ⟨hb, hu⟩ := hchk r hr
                  obtain ⟨h₁, he₁, hl₁, -⟩ := fill_cached hA hch h hb hu hcstr hv
                  exact ⟨h₁, he₁, hl₁⟩
        obtain ⟨h₁, he₁, hl₁⟩ := h₁
        cases v with
        | none =>
          cases hp
          exact ⟨h₁, he₁, hl₁⟩
        | some chkBuf' =>
          obtain ⟨passed, -, hp⟩ := Run.bind_eq_ok.mp hp
          split at hp
          · obtain ⟨h₂, he₂, hl₂⟩ := ih hchks h₁ hp
            exact ⟨h₂, he₂.trans he₁, fun r hl => hl₂ r (hl₁ r hl)⟩
          · split at hp
            · split at hp
              · split at hp
                · cases hp
                  exact ⟨cached_kick h₁ _, he₁, hl₁⟩
                · cases hp
              · cases hp
                exact ⟨h₁, he₁, hl₁⟩
            · cases hp
              exact ⟨h₁, he₁, hl₁⟩

theorem passChecks_cached (hA : opt.Apart chunk base) (hch : chunk ≤ 2 ^ 64) {en : CfgEntry}
    {memOffs : Ptr} {b : Bool}
    (hc : ∀ chk ∈ en.checks.getD [], ∀ r, chk.cache = some r → base r.mem = some memOffs ∧ opt.Uses r)
    (h : s.Cached chunk opt base view) (hp : passChecks chunk en memOffs s = .ok (b, s')) :
    s'.Cached chunk opt base view ∧ s'.events = s.events ∧
      ∀ r, s.opt.caches.Loaded r → s'.opt.caches.Loaded r := by
  unfold passChecks at hp
  split at hp
  · cases hp
    exact ⟨h, rfl, fun _ hl => hl⟩
  · rename_i chks hchks
    rw [hchks, Option.getD_some] at hc
    exact processChecks_cached hA hch hc h hp

/-! ## Values -/

/-- A value in a cache is at its place. -/
theorem place_offs {memOffs addr offs cacheData : Ptr} (h : cacheData = addr - offs) :
    memOffs + offs + cacheData = memOffs + addr := by
  rw [h, add_assoc, add_sub_cancel]

theorem changeMemVal_sim (hA : opt.Apart chunk base) (hch : chunk ≤ 2 ^ 64) {e : Nat} {en : CfgEntry}
    {slot : Option Nat} {memOffs : Ptr} (hp : AtPlace opt base P e slot en memOffs) {t : NumType}
    (ht : en.type.num = some t) {readVal value : Value} (h : s.Cached chunk opt base view)
    (hl : ∀ r, en.cache = some r → s.opt.caches.Loaded r)
    (hs : changeMemVal chunk t e en readVal value memOffs slot s = .ok s') :
    Sim chunk opt base P view s s' := by
  unfold changeMemVal at hs
  split at hs
  · cases hs
    exact sim_of_cached h rfl
  · obtain ⟨⟨passed, s₁⟩, hchk, hs⟩ := Run.bind_eq_ok.mp hs
    obtain ⟨h₁, he₁, hl₁⟩ := passChecks_cached hA hch hp.check h hchk
    refine sim_trans (sim_of_cached h₁ he₁) fun view₁ h₁ => ?_
    dsimp only at hs
    split at hs
    · cases hs
      exact sim_of_cached h₁ rfl
    · split at hs
      · cases hs
        exact sim_of_cached h₁ rfl
      · split at hs
        · cases hs
          exact sim_of_cached h₁ rfl
        · cases hr : en.cache with
          | none =>
            unfold storeVal at hs
            rw [hr] at hs
            cases hs
          | some r =>
            have hcstr : en.type.isCstr = false := by
              cases hcstr : en.type.isCstr with
              | false => rfl
              | true =>
                rw [hp.text hcstr] at hr
                cases hr
            obtain ⟨r', c, hr', hb, hu, hc, hdata⟩ := hp.cache hcstr
            cases hr.symm.trans hr'
            obtain ⟨c', hc', he', h'⟩ := storeVal_cached hA hch h₁ hr hb hu (hl₁ r (hl r hr)) hs
            cases hc.symm.trans hc'
            rw [place_offs hdata] at h'
            refine sim_event he' (fun ptr hP => ?_) h'
            obtain ⟨en₀, he₀, hsh⟩ := hp.entry
            have htype : en₀.type = en.type := (CfgEntry.shape_fields hsh).1
            have hnum : en₀.type.num = some t := htype ▸ ht
            show (opt.entries[e]? >>= _) = _
            rw [he₀]
            show (en₀.type.num >>= _) = _
            rw [hnum]
            show (opt.addr? ptr e slot >>= _) = _
            rw [hp.addr ptr hP]
            rfl

theorem cached_modifyVals (h : s.Cached chunk opt base view) {e : Nat} {f : EntryVals → EntryVals}
    (hf : ∀ v, (f v).dims = v.dims) : (s.modifyVals e f).Cached chunk opt base view :=
  h.of_values rfl rfl (alike_modifyVals h.alike fun en _ => hf en.vals)

/-- The value in `buf` was found at the place of the entry. -/
theorem finds_of_place {e : Nat} {slot : Option Nat} {en : CfgEntry} {memOffs : Ptr}
    (hp : AtPlace opt base P e slot en memOffs) {buf : Value} {ptr : Ptr} (hP : P ptr)
    (hbuf : en.type.isCstr = false →
      buf.bytes en.type.bytes = rangeBytes view (memOffs + en.addr) en.type.bytes) :
    Direct.Finds opt ⟨view, ptr⟩ e slot buf = true := by
  obtain ⟨en₀, he₀, hsh⟩ := hp.entry
  have htype : en₀.type = en.type := (CfgEntry.shape_fields hsh).1
  unfold Direct.Finds
  rw [he₀, hp.addr ptr hP]
  dsimp only
  rw [htype]
  cases hcstr : en.type.isCstr with
  | true => rfl
  | false => simpa using hbuf hcstr

/-- **A value** that was read is in `buf`; its wish value may be stored. -/
theorem changeMemory_sim (hA : opt.Apart chunk base) (hch : chunk ≤ 2 ^ 64) {e : Nat} {en : CfgEntry}
    {slot : Option Nat} {memOffs : Ptr} (hp : AtPlace opt base P e slot en memOffs)
    (h : s.Cached chunk opt base view) (hl : ∀ r, en.cache = some r → s.opt.caches.Loaded r)
    (hbuf : en.type.isCstr = false →
      s.buf.bytes en.type.bytes = rangeBytes view (memOffs + en.addr) en.type.bytes)
    (hs : changeMemory chunk e en memOffs slot s = .ok s') : Sim chunk opt base P view s s' := by
  unfold changeMemory at hs
  have h₁ : ((s.modifyVals e (·.setFlag false)).emit (.read e slot s.buf)).Cached chunk opt base view :=
    cached_emit (cached_modifyVals (f := (·.setFlag false)) h fun _ => rfl) _
  have hread : Sim chunk opt base P view s
      ((s.modifyVals e (·.setFlag false)).emit (.read e slot s.buf)) :=
    sim_event rfl (fun ptr hP => if_pos (finds_of_place hp hP hbuf)) h₁
  refine sim_trans hread fun view₁ h₁ => ?_
  dsimp only at hs
  split at hs
  · split at hs
    · cases hs
      exact sim_of_cached h₁ rfl
    · rename_i t ht
      obtain ⟨⟨value, s₂⟩, hdv, hs⟩ := Run.bind_eq_ok.mp hs
      have h₂ : s₂.Cached chunk opt base view₁ ∧ s₂.events =
          ((s.modifyVals e (·.setFlag false)).emit (.read e slot s.buf)).events ∧
          s₂.opt.caches = s.opt.caches := by
        have h₁' : ∀ x, ProcState.Cached chunk opt base view₁ (((s.modifyVals e (·.setFlag false)).emit
            (.read e slot s.buf)).modifyVals e (·.setOld slot x)) :=
          fun x => cached_modifyVals h₁ fun _ => dims_setOld
        rcases handleDynval_spec hdv with ⟨rfl | ⟨text, rfl⟩, -, -⟩
        · exact ⟨h₁' _, rfl, rfl⟩
        · exact ⟨cached_modifyVals (h₁' _) fun _ => dims_setCstr, rfl, rfl⟩
      obtain ⟨h₂, he₂, hc₂⟩ := h₂
      have h₃ : (s₂.modifyVals e (·.setWish slot value)).Cached chunk opt base view₁ :=
        cached_modifyVals h₂ fun _ => dims_setWish
      refine sim_trans (sim_of_cached h₃ he₂) fun view₂ h₃ => ?_
      refine changeMemVal_sim hA hch hp ht h₃ (fun r hr => ?_) hs
      show s₂.opt.caches.Loaded r
      rw [hc₂]
      exact hl r hr
  · cases hs

/-- **An entry** is read, and then processed. -/
theorem fill_sim (hA : opt.Apart chunk base) (hch : chunk ≤ 2 ^ 64) {e : Nat} {en : CfgEntry}
    {slot : Option Nat} {memOffs : Ptr} (hp : AtPlace opt base P e slot en memOffs)
    (h : s.Cached chunk opt base view) {buf : Value} {v : Option Value}
    (hf : fillCacheAndBuf chunk en.type en.cache en.cacheData memOffs buf s = .ok (v, s₁)) :
    s₁.Cached chunk opt base view ∧ s₁.events = s.events ∧ ∀ buf', v = some buf' →
      (∀ r, en.cache = some r → s₁.opt.caches.Loaded r) ∧ (en.type.isCstr = false →
        buf'.bytes en.type.bytes = rangeBytes view (memOffs + en.addr) en.type.bytes) := by
  cases hcstr : en.type.isCstr with
  | true =>
    unfold fillCacheAndBuf at hf
    rw [if_pos hcstr] at hf
    cases hf
    refine ⟨h, rfl, fun buf' _ => ⟨fun r hr => ?_, fun hno => by cases hno⟩⟩
    rw [hp.text hcstr] at hr
    cases hr
  | false =>
    obtain ⟨r, c, hr, hb, hu, hc, hdata⟩ := hp.cache hcstr
    rw [hr] at hf
    obtain ⟨h₁, he₁, -, hv⟩ := fill_cached hA hch h hb hu hcstr hf
    refine ⟨h₁, he₁, fun buf' hbuf => ?_⟩
    obtain ⟨hl, hbytes⟩ := hv buf' hbuf
    refine ⟨fun r' hr' => ?_, fun _ => ?_⟩
    · cases hr.symm.trans hr'
      exact hl
    · rw [hbytes c hc, place_offs hdata]

/-! ## Pointers -/

/-- The section of a pointer belongs to the class of the pointer. -/
def Options.PtrsOwned (opt : Options) : Prop :=
  ∀ en ∈ opt.entries, ∀ p pm, en.ptrtgt = some p → opt.ptrmems[p]? = some pm → pm.dynmem = en.dynmem

theorem Steps.events_prefix {C : ProcEvent → Prop} (h : Steps C s s') : s.events <+: s'.events := by
  obtain ⟨evs, he, -⟩ := h.events
  exact ⟨evs, he.symm⟩

/-- Only following a pointer changes a section. -/
theorem Steps.ptrmems {C : ProcEvent → Prop} (hC : ∀ e i b, ¬ C (.follow e i b)) (h : Steps C s s') :
    s'.opt.ptrmems = s.opt.ptrmems := by
  induction h with
  | refl => rfl
  | tail _ hp ih =>
    cases hp with
    | mem | objIdx | kick | read | store | pointer | move => exact ih
    | settle he ht hp h0 hst hev hf => exact absurd hf (hC _ _ _)

theorem shape_rest {en en₀ : CfgEntry} (h : en₀.shape = en.shape) : en₀.addr = en.addr ∧
    en₀.cache = en.cache ∧ en₀.cacheData = en.cacheData ∧ en₀.checks = en.checks := by
  have h := congrArg (·.1) h
  exact ⟨congrArg (·.addr) h, congrArg (·.cache) h, congrArg (·.cacheData) h, congrArg (·.checks) h⟩

/-- Where an entry is processed, if its lists are there. -/
theorem place_of_housed (hh : opt.Housed) {e : Nat} {en en₀ : CfgEntry} {slot : Option Nat}
    {memOffs : Ptr} (he : opt.entries[e]? = some en₀) (hs : en₀.shape = en.shape)
    (hbase : ∀ mem, opt.Houses en₀ mem → base mem = some memOffs)
    (haddr : ∀ ptr, P ptr → opt.addr? ptr e slot = some (memOffs + en₀.addr)) :
    AtPlace opt base P e slot en memOffs := by
  have hmem := List.mem_of_getElem? he
  have htype : en₀.type = en.type := (CfgEntry.shape_fields hs).1
  obtain ⟨heq, hcache, hdata, hchecks⟩ := shape_rest hs
  refine ⟨⟨en₀, he, hs⟩, fun ptr hP => heq ▸ haddr ptr hP, fun hcstr => ?_, fun hcstr => ?_,
    fun chk hchk r hr => ?_⟩
  · obtain ⟨r, c, hr, hhouse, hc, hcd⟩ := hh.entry en₀ hmem (htype ▸ hcstr)
    exact ⟨r, c, hcache ▸ hr, hbase _ hhouse, ⟨en₀, hmem, .inl hr⟩, hc, by rw [← hdata, hcd, heq]⟩
  · exact hcache ▸ hh.text en₀ hmem (htype ▸ hcstr)
  · rw [← hchecks] at hchk
    exact ⟨hbase _ (hh.check en₀ hmem chk hchk r hr), en₀, hmem, .inr ⟨chk, hchk, hr⟩⟩

/-- One after the other, where each keeps `I` and the events are all good. -/
theorem foldlM_sim {ι : Type} {f : ProcState → ι → Except Fault ProcState} {l : List ι}
    {I : ProcState → Prop} {C : ProcEvent → Prop}
    (hf : ∀ i ∈ l, ∀ s s' view, I s → s.Cached chunk opt base view → (∀ ev ∈ s'.events, C ev) →
      f s i = .ok s' → Sim chunk opt base P view s s')
    (hI : ∀ i ∈ l, ∀ s s', I s → f s i = .ok s' → I s' ∧ s.events <+: s'.events)
    (hs : I s) (h : s.Cached chunk opt base view) (hgood : ∀ ev ∈ s'.events, C ev)
    (hl : l.foldlM f s = .ok s') : Sim chunk opt base P view s s' := by
  have hmono : ∀ (l : List ι), (∀ i ∈ l, ∀ s s', I s → f s i = .ok s' → I s' ∧ s.events <+: s'.events) →
      ∀ s, I s → l.foldlM f s = .ok s' → s.events <+: s'.events := by
    intro l
    induction l with
    | nil =>
      intro _ s _ hl
      cases hl
      exact List.prefix_refl _
    | cons i l ih =>
      intro hI s hs hl
      obtain ⟨s₁, h₁, hl⟩ := Run.bind_eq_ok.mp hl
      obtain ⟨hs₁, hpre⟩ := hI i List.mem_cons_self s s₁ hs h₁
      exact hpre.trans (ih (fun j hj => hI j (List.mem_cons_of_mem i hj)) s₁ hs₁ hl)
  induction l generalizing s view with
  | nil =>
    cases hl
    exact sim_of_cached h rfl
  | cons i l ih =>
    obtain ⟨s₁, h₁, hl⟩ := Run.bind_eq_ok.mp hl
    have hI' := fun j hj => hI j (List.mem_cons_of_mem i hj)
    obtain ⟨hs₁, -⟩ := hI i List.mem_cons_self s s₁ hs h₁
    have hpre := hmono l hI' s₁ hs₁ hl
    refine sim_trans (hf i List.mem_cons_self s s₁ view hs h (fun ev hev => hgood ev (hpre.subset hev)) h₁)
      fun view₁ hc => ?_
    exact ih (fun j hj => hf j (List.mem_cons_of_mem i hj)) hI' hs₁ hc hl

/-- **An entry of a pointer section**, at the address that the pointer has. -/
theorem processTarget_sim (hA : opt.Apart chunk base) (hch : chunk ≤ 2 ^ 64) (hh : opt.Housed)
    {p memIdx e : Nat} {v : Ptr} {slot : Option Nat} (hb : base (.ptrmem p) = some v)
    (hsec : opt.sectionOf e = some p) (h : s.Cached chunk opt base view)
    (hoffs : ∀ pm x, s.opt.ptrmems[p]? = some pm → pm.vOffs[memIdx]? = some x → x = v)
    (hs : processTarget chunk memIdx slot s e = .ok s') :
    Sim chunk opt base (· = v) view s s' := by
  unfold processTarget at hs
  split at hs
  · cases hs
  · rename_i en he
    obtain ⟨en₀, he₀, hsh⟩ := h.alike.same.symm.entry he
    have hptr₀ : en₀.ptrmem = some p := by
      rw [CfgMem.sectionOf, he₀] at hsec
      exact hsec
    have hptr : en.ptrmem = some p := (CfgEntry.shape_fields hsh).2.2.2.1.symm.trans hptr₀
    split at hs
    · cases hs
    · cases hs
    · rename_i memOffs hm
      rw [hptr, Option.bind_some] at hm
      obtain ⟨pm, hpm, hx⟩ := Option.map_eq_some_iff.mp hm
      obtain rfl := hoffs pm memOffs hpm hx
      have hp : AtPlace opt base (· = memOffs) e slot en memOffs := by
        refine place_of_housed hh he₀ hsh (fun mem hm => ?_) ?_
        · rw [Options.Houses, hptr₀] at hm
          rw [hm, hb]
        · rintro ptr rfl
          rw [Options.addr?, he₀]
          show (if en₀.ptrmem.isSome then some (ptr + en₀.addr) else _) = _
          rw [hptr₀]
          rfl
      obtain ⟨⟨buf, s₁⟩, hf, hs⟩ := Run.bind_eq_ok.mp hs
      obtain ⟨h₁, he₁, hbuf⟩ := fill_sim hA hch hp h hf
      refine sim_of_quiet he₁ ?_
      cases buf with
      | none =>
        cases hs
        exact sim_of_cached h₁ rfl
      | some buf =>
        obtain ⟨hl, hbytes⟩ := hbuf buf rfl
        exact changeMemory_sim (s := s₁.setBuf buf) hA hch hp (cached_setBuf h₁ buf) hl hbytes hs

theorem followPtr_follows {e p memIdx : Nat} {en : CfgEntry} {pm : PtrMemEntry} {slot : Option Nat}
    (hs : followPtr chunk en e p pm memIdx slot s = .ok s') :
    .follow e memIdx s.buf ∈ s'.events := by
  unfold followPtr at hs
  obtain ⟨s₂, h₂, hs⟩ := Run.bind_eq_ok.mp hs
  cases hs
  have hsteps : Steps (fun _ => True) _ s₂ :=
    foldlM_steps (fun _ _ _ _ => processTarget_steps fun _ => ⟨trivial, trivial⟩) h₂
  exact hsteps.events_prefix.subset (List.mem_append_right _ (List.mem_singleton_self _))

/-- **A pointer is followed**: the caches of its section are opened where it leads. -/
theorem followPtr_sim (hch : chunk ≤ 2 ^ 64) (hh : opt.Housed) {e p memIdx : Nat} {en : CfgEntry}
    {pm : PtrMemEntry} {slot : Option Nat} (hnone : base (.ptrmem p) = none)
    (hA : opt.Apart chunk (Function.update base (.ptrmem p) (some s.buf)))
    (hact : ∀ e' ∈ pm.cfgAct, opt.sectionOf e' = some p) (h : s.Cached chunk opt base view)
    (hs : followPtr chunk en e p pm memIdx slot s = .ok s') :
    Sim chunk opt base (fun _ => True) view s s' := by
  unfold followPtr at hs
  obtain ⟨s₂, h₂, hs⟩ := Run.bind_eq_ok.mp hs
  cases hs
  set s₀ : ProcState := ((s.modifyPtrmem p fun pm => { pm with
    vState := pm.vState.set memIdx (if en.dynval = .ptrOnce then .done else .settled)
    vOffs := pm.vOffs.set memIdx s.buf }).emit (.follow e memIdx s.buf)).invalidateCaches (.ptrmem p)
    with hs₀
  have hoffs : ∀ pm x, s₀.opt.ptrmems[p]? = some pm → pm.vOffs[memIdx]? = some x → x = s.buf := by
    intro pm x hpm hx
    rw [show s₀.opt.ptrmems = s.opt.ptrmems.modify p _ from rfl, List.getElem?_modify_eq] at hpm
    obtain ⟨pm₀, -, rfl⟩ := Option.map_eq_some_iff.mp hpm
    rw [List.getElem?_set_self'] at hx
    obtain ⟨y, -, rfl⟩ := Option.map_eq_some_iff.mp hx
    rfl
  have hset : (s.modifyPtrmem p fun pm => { pm with
      vState := pm.vState.set memIdx (if en.dynval = .ptrOnce then .done else .settled)
      vOffs := pm.vOffs.set memIdx s.buf }).Cached chunk opt base view := by
    refine h.of_values rfl rfl ⟨?_, h.alike.offs, h.alike.addrs⟩
    exact h.alike.same.trans (same_modifyPtrmem fun pm => by simp [PtrMemEntry.shape])
  have hc₀ : s₀.Cached chunk opt (Function.update base (.ptrmem p) (some s.buf)) view :=
    invalidate_cached (cached_emit hset _) hnone _
  have hstep : ∀ e' ∈ pm.cfgAct, ∀ s s', processTarget chunk memIdx slot s e' = .ok s' →
      Steps (fun ev => ∀ e i b, ev ≠ .follow e i b) s s' :=
    fun e' _ s s' hs => processTarget_steps (C := fun ev => ∀ e i b, ev ≠ .follow e i b)
      (fun b => ⟨by simp, by simp⟩) hs
  have hfold : Sim chunk opt (Function.update base (.ptrmem p) (some s.buf)) (· = s.buf) view s₀ s₂ := by
    refine foldlM_sim (I := fun s₁ => s₁.opt.ptrmems = s₀.opt.ptrmems) (C := fun _ => True)
      (fun e' he' s₃ s₄ view₃ hI h₃ _ hs => ?_) (fun e' he' s₃ s₄ hI hs => ?_) rfl hc₀ (fun _ _ => trivial) h₂
    · refine processTarget_sim hA hch hh (Function.update_self ..) (hact e' he') h₃ (fun pm' x hpm' hx => ?_) hs
      rw [hI] at hpm'
      exact hoffs pm' x hpm' hx
    · have hsteps := hstep e' he' s₃ s₄ hs
      exact ⟨(hsteps.ptrmems fun e i b hno => hno e i b rfl).trans hI, hsteps.events_prefix⟩
  intro ptr _
  obtain ⟨evs, view', ptr', -, he', hr, hc⟩ := hfold s.buf rfl
  refine ⟨.follow e memIdx s.buf :: evs, view', ptr', trivial, ?_, hr, ?_⟩
  · show s₂.events = _
    rw [he', hs₀]
    show s.events ++ [.follow e memIdx s.buf] ++ evs = _
    rw [List.append_assoc]
    rfl
  · have hback := writeCaches_cached hc (Function.update_self ..)
    rwa [Function.update_idem, ← hnone, Function.update_eq_self] at hback

/-- What is in the section lists. -/
def Options.Targets (opt : Options) : Prop :=
  ∀ (p : Nat) (pm : PtrMemEntry), opt.ptrmems[p]? = some pm → ∀ e ∈ pm.cfgAct, opt.sectionOf e = some p

/-- **A pointer** whose value is in `buf`. -/
theorem processPtrmem_sim (hA : opt.Apart chunk base) (hch : chunk ≤ 2 ^ 64) (hh : opt.Housed)
    (htgt : opt.Targets) (hnone : ∀ p, base (.ptrmem p) = none) {e memIdx : Nat} {en : CfgEntry}
    {memOffs : Ptr} (hp : AtPlace opt base (fun _ => True) e (some memIdx) en memOffs)
    (hfollow : ∀ p, en.ptrtgt = some p → ∀ v, .follow e memIdx v ∈ s'.events →
      opt.Apart chunk (Function.update base (.ptrmem p) (some v)))
    (hslot : ∀ p pm slot m, en.ptrtgt = some p → s.opt.ptrmems[p]? = some pm →
      pointerSlot s.opt pm.dynmem memIdx = .ok (slot, m) → m = memOffs)
    (h : s.Cached chunk opt base view)
    (hbuf : en.type.isCstr = false →
      s.buf.bytes en.type.bytes = rangeBytes view (memOffs + en.addr) en.type.bytes)
    (hs : processPtrmem chunk e en memIdx s = .ok s') :
    Sim chunk opt base (fun _ => True) view s s' := by
  unfold processPtrmem at hs
  split at hs
  · cases hs
  · rename_i p ptrtgt hpt
    obtain ⟨p', hp', hpm⟩ := Option.bind_eq_some_iff.mp hpt
    obtain ⟨pm, hpm, hpp⟩ := Option.map_eq_some_iff.mp hpm
    cases hpp
    obtain ⟨⟨slot, m⟩, hsl, hs⟩ := Run.bind_eq_ok.mp hs
    obtain rfl := hslot p ptrtgt slot m hp' hpm hsl
    dsimp only at hs
    split at hs
    · cases hs
      exact sim_of_cached h rfl
    · set value := ((s.opt.entries[e]?).bind (·.vals.old? slot)).getD 0
      have h₁ := cached_emit h (.pointer e memIdx s.buf value)
      have hsim : Sim chunk opt base (fun _ => True) view s (s.emit (.pointer e memIdx s.buf value)) :=
        sim_event rfl (fun ptr hP => if_pos (finds_of_place hp hP hbuf)) h₁
      refine sim_trans hsim fun view₁ h₁ => ?_
      split at hs
      · cases hs
        exact sim_of_cached h₁ rfl
      · split at hs
        · cases hs
        · cases hs
          exact sim_of_cached h₁ rfl
        · split at hs
          · cases hs
          · split at hs
            · obtain ⟨⟨passed, s₂⟩, hchk, hs⟩ := Run.bind_eq_ok.mp hs
              obtain ⟨h₂, he₂, -⟩ := passChecks_cached hA hch hp.check h₁ hchk
              refine sim_of_quiet he₂ ?_
              dsimp only at hs
              split at hs
              · cases hs
                exact sim_of_cached h₂ rfl
              · obtain ⟨pm₀, hpm₀, hsh⟩ := h.alike.same.symm.ptrmem hpm
                have hact : ∀ e' ∈ ptrtgt.cfgAct, opt.sectionOf e' = some p := by
                  rw [← (PtrMemEntry.shape_fields hsh).2.1]
                  exact htgt p pm₀ hpm₀
                refine followPtr_sim hch hh (hnone p) (hfollow p hp' _ ?_) hact h₂ hs
                exact (followPtr_follows hs)
            · cases hs
              exact sim_of_cached (cached_modifyVals h₁ fun _ => dims_setOld) rfl

/-- **An entry** whose value is in `buf`. -/
theorem processValue_sim (hA : opt.Apart chunk base) (hch : chunk ≤ 2 ^ 64) (hh : opt.Housed)
    (htgt : opt.Targets) (hnone : ∀ p, base (.ptrmem p) = none) {e memIdx : Nat} {en : CfgEntry}
    {memOffs : Ptr} {slot : Option Nat} (hp : AtPlace opt base (fun _ => True) e slot en memOffs)
    (hp' : AtPlace opt base (fun _ => True) e (some memIdx) en memOffs)
    (hfollow : ∀ p, en.ptrtgt = some p → ∀ v, .follow e memIdx v ∈ s'.events →
      opt.Apart chunk (Function.update base (.ptrmem p) (some v)))
    (hslot : ∀ p pm slot m, en.ptrtgt = some p → s.opt.ptrmems[p]? = some pm →
      pointerSlot s.opt pm.dynmem memIdx = .ok (slot, m) → m = memOffs)
    (h : s.Cached chunk opt base view) (hl : ∀ r, en.cache = some r → s.opt.caches.Loaded r)
    (hbuf : en.type.isCstr = false →
      s.buf.bytes en.type.bytes = rangeBytes view (memOffs + en.addr) en.type.bytes)
    (hs : processValue chunk e en memOffs memIdx slot s = .ok s') :
    Sim chunk opt base (fun _ => True) view s s' := by
  unfold processValue at hs
  split at hs
  · exact processPtrmem_sim hA hch hh htgt hnone hp' hfollow hslot h hbuf hs
  · exact changeMemory_sim hA hch hp h hl hbuf hs

end Sim

/-! ## Objects -/

/-- Where the lists of a whole cycle are, and that of a class while an object is processed. -/
def Options.staticBase (opt : Options) (mem : MemType) : Option Ptr :=
  if mem ∈ opt.cycleCaches then some 0 else none

def Options.objBase (opt : Options) (i : Nat) : Option Nat → MemType → Option Ptr
  | none => opt.staticBase
  | some d => Function.update opt.staticBase (.dynmem d) ((opt.dynmems[d]?).bind (·.vMaddr[i]?))

/-- Where a pointer leads, its section lies apart from the rest. -/
def Options.FollowsApart (chunk : Nat) (opt : Options) : ProcEvent → Prop
  | .follow e i v => ∀ en p, opt.entries[e]? = some en → en.ptrtgt = some p →
    opt.Apart chunk (Function.update (opt.objBase i en.dynmem) (.ptrmem p) (some v))
  | _ => True

/-- **Everything that is in use at the same time lies apart**: the static values and checks, those of
each object, and what its pointers lead to. -/
structure Options.Spread (chunk : Nat) (opt : Options) (evs : List ProcEvent) : Prop where
  static : opt.Apart chunk opt.staticBase
  obj : ∀ (d : Nat) (dm : DynMemEntry) (i : Nat) (m : Ptr), opt.dynmems[d]? = some dm →
    dm.vMaddr[i]? = some m → m ≠ 0 → opt.Apart chunk (opt.objBase i (some d))
  follow : ∀ ev ∈ evs, opt.FollowsApart chunk ev

/-- What a cycle relies on in the config. -/
structure Options.Ordered (opt : Options) (cfgAct : List Nat) : Prop where
  acts : opt.Acts cfgAct
  housed : opt.Housed
  owned : opt.PtrsOwned

section Cycle

variable {chunk : Nat} {opt : Options} {cfgAct : List Nat} {view : Ptr → UInt8} {s s₁ s' : ProcState}

theorem mem_cycleCaches {mem : MemType} (h : mem ∈ opt.cycleCaches) :
    (∀ d, mem ≠ .dynmem d) ∧ ∀ p, mem ≠ .ptrmem p := by
  unfold Options.cycleCaches at h
  constructor
  · rintro d rfl
    cases hv : opt.valOnStack <;> simp [hv] at h
  · rintro p rfl
    cases hv : opt.valOnStack <;> simp [hv] at h

theorem staticBase_dynmem (d : Nat) : opt.staticBase (.dynmem d) = none :=
  if_neg fun h => (mem_cycleCaches h).1 d rfl

theorem staticBase_ptrmem (p : Nat) : opt.staticBase (.ptrmem p) = none :=
  if_neg fun h => (mem_cycleCaches h).2 p rfl

theorem objBase_ptrmem (i : Nat) (d : Option Nat) (p : Nat) : opt.objBase i d (.ptrmem p) = none := by
  cases d with
  | none => exact staticBase_ptrmem p
  | some d => exact (Function.update_of_ne (by simp) _ _).trans (staticBase_ptrmem p)

theorem targets_of_acts (h : opt.Acts cfgAct) : opt.Targets := fun p pm hpm => (h.targets p pm hpm).2

theorem pointerSlot_obj {d i : Nat} {dm : DynMemEntry} {slot : Option Nat} {m memOffs : Ptr}
    (hd : opt.dynmems[d]? = some dm) (hm : dm.vMaddr[i]? = some memOffs)
    (h : pointerSlot opt (some d) i = .ok (slot, m)) : m = memOffs := by
  unfold pointerSlot at h
  rw [Options.dynmem?, Option.bind_some, hd] at h
  dsimp only at h
  rw [hm] at h
  cases h
  rfl

/-- **An entry of a class**, for one object. -/
theorem processObjEntry_sim (hch : chunk ≤ 2 ^ 64) (ho : opt.Ordered cfgAct) {d i e : Nat}
    (hclass : opt.classOf e = some d) (hsec : opt.sectionOf e = none)
    (hobj : ∀ dm m, opt.dynmems[d]? = some dm → dm.vMaddr[i]? = some m → m ≠ 0 →
      opt.Apart chunk (opt.objBase i (some d)))
    (hgood : ∀ ev ∈ s'.events, opt.FollowsApart chunk ev)
    (h : s.Cached chunk opt (opt.objBase i (some d)) view)
    (hs : processObjEntry chunk d i s e = .ok s') :
    Sim chunk opt (opt.objBase i (some d)) (fun _ => True) view s s' := by
  unfold processObjEntry at hs
  split at hs
  · rename_i dm en hd he
    split at hs
    · cases hs
    · rename_i memOffs hm
      split at hs
      · cases hs
        exact sim_of_cached h rfl
      · rename_i h0
        split at hs
        · cases hs
        · split at hs
          · cases hs
            exact sim_of_cached h rfl
          · obtain ⟨dm₀, hd₀, hm₀⟩ := h.alike.addrs d dm i memOffs hd hm h0
            obtain ⟨en₀, he₀, hsh⟩ := h.alike.same.symm.entry he
            obtain ⟨-, -, hdyn, -, htgt, -⟩ := CfgEntry.shape_fields hsh
            have hdyn₀ : en₀.dynmem = some d := by
              rw [CfgMem.classOf, he₀] at hclass
              exact hclass
            have hptr₀ : en₀.ptrmem = none := by
              rw [CfgMem.sectionOf, he₀] at hsec
              exact hsec
            have hbase : opt.objBase i (some d) (.dynmem d) = some memOffs := by
              rw [Options.objBase, Function.update_self, hd₀]
              exact hm₀
            have hA := hobj dm₀ memOffs hd₀ hm₀ h0
            have hp : AtPlace opt (opt.objBase i (some d)) (fun _ => True) e (some i) en memOffs := by
              refine place_of_housed ho.housed he₀ hsh (fun mem hmem => ?_) fun ptr _ => ?_
              · rw [Options.Houses, hptr₀, hdyn₀] at hmem
                rw [hmem, hbase]
              · exact addr?_obj he₀ hptr₀ hdyn₀ hd₀ hm₀
            obtain ⟨⟨buf, s₁⟩, hf, hs⟩ := Run.bind_eq_ok.mp hs
            have h₁ := cached_objIdx h d i
            obtain ⟨h₂, he₂, hbuf⟩ := fill_sim hA hch hp h₁ hf
            obtain ⟨caches, hs₁⟩ := fillCacheAndBuf_spec hf
            refine sim_of_quiet he₂ ?_
            cases buf with
            | none =>
              cases hs
              exact sim_of_cached h₂ rfl
            | some buf =>
              obtain ⟨hl, hbytes⟩ := hbuf buf rfl
              refine processValue_sim (s := s₁.setBuf buf) hA hch ho.housed (targets_of_acts ho.acts)
                (objBase_ptrmem i (some d)) hp hp (fun p hpt v hv => ?_) (fun p pm slot m hpt hpm hsl => ?_)
                (cached_setBuf h₂ buf) hl hbytes hs
              · have := hgood _ hv en₀ p he₀ (htgt.trans hpt)
                rwa [hdyn₀] at this
              · obtain ⟨pm₀, hpm₀, hpsh⟩ := h₂.alike.same.symm.ptrmem hpm
                have hpd : pm.dynmem = some d := by
                  rw [← (PtrMemEntry.shape_fields hpsh).2.2.1,
                    ho.owned en₀ (List.mem_of_getElem? he₀) p pm₀ (htgt.trans hpt) hpm₀, hdyn₀]
                subst hs₁
                have hdm : (s.modifyDynmem d fun dm => { dm with objIdx := i }).opt.dynmems[d]? =
                    some { dm with objIdx := i } := by
                  show (s.opt.dynmems.modify d _)[d]? = _
                  rw [List.getElem?_modify_eq, hd]
                  rfl
                rw [hpd] at hsl
                exact pointerSlot_obj hdm hm hsl
  · cases hs

theorem cycleEvents_true (cfgAct : List Nat) (opt : Options) :
    CycleEvents (fun _ => True) cfgAct opt := by
  have hp : ∀ opt e i en, PtrEvents (fun _ => True) opt e i en := fun _ _ _ _ =>
    ⟨⟨fun _ => trivial, fun _ _ _ _ _ _ _ _ => ⟨trivial, trivial⟩⟩, fun _ _ => trivial⟩
  exact ⟨fun _ _ _ _ _ => ⟨fun _ _ => ⟨trivial, trivial⟩, fun _ => hp _ _ _ _⟩,
    fun _ _ _ _ _ _ _ _ _ => ⟨fun _ _ => ⟨trivial, trivial⟩, fun _ => hp _ _ _ _⟩⟩

/-- **An object**: the caches of its class are opened at its address. -/
theorem processObj_sim (hch : chunk ≤ 2 ^ 64) (ho : opt.Ordered cfgAct) {d i : Nat} {dm : DynMemEntry}
    (hd : opt.dynmems[d]? = some dm) (hi : i < dm.vMaddr.length)
    (hobj : ∀ dm m, opt.dynmems[d]? = some dm → dm.vMaddr[i]? = some m → m ≠ 0 →
      opt.Apart chunk (opt.objBase i (some d)))
    (hgood : ∀ ev ∈ s'.events, opt.FollowsApart chunk ev)
    (h : s.Cached chunk opt opt.staticBase view) (hs : processObj chunk d dm.cfgAct s i = .ok s') :
    Sim chunk opt opt.staticBase (fun _ => True) view s s' := by
  unfold processObj at hs
  obtain ⟨s₁, h₁, hs⟩ := Run.bind_eq_ok.mp hs
  cases hs
  have hopen : (s.invalidateCaches (.dynmem d)).Cached chunk opt (opt.objBase i (some d)) view :=
    invalidate_cached h (staticBase_dynmem d) _
  have hact : ∀ e ∈ dm.cfgAct, opt.classOf e = some d ∧ opt.sectionOf e = none := by
    intro e he
    rw [ho.acts.classes d dm hd] at he
    obtain ⟨hmem, hclass⟩ := List.mem_filter.mp he
    exact ⟨by simpa using hclass, (ho.acts.entries e hmem).2⟩
  have hfold : Sim chunk opt (opt.objBase i (some d)) (fun _ => True) view
      (s.invalidateCaches (.dynmem d)) s₁ := by
    refine foldlM_sim (I := fun s => opt.Same s.opt) (C := opt.FollowsApart chunk)
      (fun e he s s' view _ h hgood hs => ?_) (fun e he s s' hI hs => ?_) hopen.alike.same hopen hgood h₁
    · exact processObjEntry_sim hch ho (hact e he).1 (hact e he).2 hobj hgood h hs
    · obtain ⟨dm', hd', hsh⟩ := hI.dynmem hd
      have hsteps : Steps (fun _ => True) s s' :=
        processObjEntry_steps (cycleEvents_true cfgAct s.opt) hd'
          ((DynMemEntry.shape_fields hsh).1 ▸ he) hs
      exact ⟨hI.trans hsteps.same, hsteps.events_prefix⟩
  intro ptr _
  obtain ⟨evs, view', ptr', -, he', hr, hc⟩ := hfold ptr trivial
  have hc₁ : (s₁.writeCaches (.dynmem d)).Cached chunk opt opt.staticBase view' := by
    have hb : opt.objBase i (some d) (.dynmem d) = some dm.vMaddr[i] := by
      rw [Options.objBase, Function.update_self, hd]
      exact List.getElem?_eq_getElem hi
    have hback := writeCaches_cached hc hb
    have hclosed : opt.staticBase (.dynmem d) = none := staticBase_dynmem d
    rwa [Options.objBase, Function.update_idem, ← hclosed, Function.update_eq_self] at hback
  exact ⟨evs, view', ptr', trivial, he', hr, hc₁⟩

theorem processDynmemCfgAct_sim (hch : chunk ≤ 2 ^ 64) (ho : opt.Ordered cfgAct) {d : Nat}
    (hsp : opt.Spread chunk s'.events) (h : s.Cached chunk opt opt.staticBase view)
    (hs : processDynmemCfgAct chunk d s = .ok s') :
    Sim chunk opt opt.staticBase (fun _ => True) view s s' := by
  unfold processDynmemCfgAct at hs
  split at hs
  · cases hs
  · rename_i dm hd
    obtain ⟨s₁, h₁, hs⟩ := Run.bind_eq_ok.mp hs
    cases hs
    obtain ⟨dm₀, hd₀, hsh⟩ := h.alike.same.symm.dynmem hd
    obtain ⟨hact, -, -, hlen⟩ := DynMemEntry.shape_fields hsh
    have hfold : Sim chunk opt opt.staticBase (fun _ => True) view (s.setBuf 0) s₁ := by
      refine foldlM_sim (I := fun s => opt.Same s.opt) (C := opt.FollowsApart chunk)
        (fun i hi s s' view _ h hgood hs => ?_) (fun i _ s s' hI hs => ?_) h.alike.same (cached_setBuf h 0)
        hsp.follow h₁
      · rw [← hact] at hs
        exact processObj_sim hch ho hd₀ (hlen ▸ List.mem_range.mp hi) (fun dm m => hsp.obj d dm i m) hgood h hs
      · obtain ⟨dm', hd', hsh'⟩ := hI.dynmem hd₀
        rw [← hact, ← (DynMemEntry.shape_fields hsh').1] at hs
        have hsteps : Steps (fun _ => True) s s' :=
          processObj_steps (cycleEvents_true cfgAct s.opt) hd' hs
        exact ⟨hI.trans hsteps.same, hsteps.events_prefix⟩
    intro ptr _
    obtain ⟨evs, view', ptr', -, he', hr, hc⟩ := hfold ptr trivial
    exact ⟨evs, view', ptr', trivial, he', hr, cached_setBuf hc s.buf⟩

/-- **An entry outside of classes.** -/
theorem processStaticEntry_sim (hch : chunk ≤ 2 ^ 64) (ho : opt.Ordered cfgAct) {e : Nat} {en : CfgEntry}
    (he : s.opt.entries[e]? = some en) (hm : e ∈ cfgAct) (hdyn : en.dynmem = none)
    (hsp : opt.Spread chunk s'.events) (h : s.Cached chunk opt opt.staticBase view)
    (hs : processStaticEntry chunk e en s = .ok s') :
    Sim chunk opt opt.staticBase (fun _ => True) view s s' := by
  unfold processStaticEntry at hs
  split at hs
  · cases hs
    exact sim_of_cached h rfl
  · obtain ⟨en₀, he₀, hsh⟩ := h.alike.same.symm.entry he
    obtain ⟨-, -, hdyn', -, htgt, -⟩ := CfgEntry.shape_fields hsh
    have hdyn₀ : en₀.dynmem = none := hdyn'.trans hdyn
    have hptr₀ : en₀.ptrmem = none := by
      have hsec := (ho.acts.entries e hm).2
      rw [CfgMem.sectionOf, he₀] at hsec
      exact hsec
    have hp : ∀ slot, AtPlace opt opt.staticBase (fun _ => True) e slot en 0 := by
      intro slot
      refine place_of_housed ho.housed he₀ hsh (fun mem hmem => ?_) fun ptr _ => ?_
      · rw [Options.Houses, hptr₀, hdyn₀] at hmem
        exact if_pos hmem
      · rw [addr?_static he₀ hptr₀ hdyn₀, zero_add]
    obtain ⟨⟨buf, s₁⟩, hf, hs⟩ := Run.bind_eq_ok.mp hs
    obtain ⟨h₁, he₁, hbuf⟩ := fill_sim hsp.static hch (hp none) h hf
    refine sim_of_quiet he₁ ?_
    cases buf with
    | none =>
      cases hs
      exact sim_of_cached h₁ rfl
    | some buf =>
      obtain ⟨hl, hbytes⟩ := hbuf buf rfl
      refine processValue_sim (s := s₁.setBuf buf) hsp.static hch ho.housed (targets_of_acts ho.acts)
        staticBase_ptrmem (hp none) (hp (some 0)) (fun p hpt v hv => ?_)
        (fun p pm slot m hpt hpm hsl => ?_) (cached_setBuf h₁ buf) hl hbytes hs
      · have := hsp.follow _ hv en₀ p he₀ (htgt.trans hpt)
        rwa [hdyn₀] at this
      · obtain ⟨pm₀, hpm₀, hpsh⟩ := h₁.alike.same.symm.ptrmem hpm
        have hpd : pm.dynmem = none := by
          rw [← (PtrMemEntry.shape_fields hpsh).2.2.1,
            ho.owned en₀ (List.mem_of_getElem? he₀) p pm₀ (htgt.trans hpt) hpm₀, hdyn₀]
        rw [hpd] at hsl
        cases hsl
        rfl

theorem processEntries_sim (hch : chunk ≤ 2 ^ 64) (ho : opt.Ordered cfgAct) {es : List Nat}
    (hes : ∀ e ∈ es, e ∈ cfgAct) {old : Option Nat} (hsp : opt.Spread chunk s'.events)
    (h : s.Cached chunk opt opt.staticBase view) (hs : processEntries chunk old es s = .ok s') :
    Sim chunk opt opt.staticBase (fun _ => True) view s s' := by
  induction es generalizing s view old with
  | nil =>
    cases hs
    exact sim_of_cached h rfl
  | cons e es ih =>
    obtain ⟨he, hes⟩ := List.forall_mem_cons.mp hes
    have hmono : ∀ {s₁ : ProcState} {old : Option Nat}, processEntries chunk old es s₁ = .ok s' →
        opt.Spread chunk s₁.events := by
      intro s₁ old hs
      have hsteps : Steps (fun _ => True) s₁ s' :=
        processEntries_steps (cycleEvents_true cfgAct s₁.opt) hes hs
      exact ⟨hsp.static, hsp.obj, fun ev hev => hsp.follow ev (hsteps.events_prefix.subset hev)⟩
    unfold processEntries at hs
    split at hs
    · cases hs
    · rename_i en hen
      split at hs
      · split at hs
        · exact ih hes h hs
        · obtain ⟨s₁, h₁, hs⟩ := Run.bind_eq_ok.mp hs
          exact sim_trans (processDynmemCfgAct_sim hch ho (hmono hs) h h₁) fun view₁ hc => ih hes hc hs
      · rename_i hdyn
        obtain ⟨s₁, h₁, hs⟩ := Run.bind_eq_ok.mp hs
        exact sim_trans (processStaticEntry_sim hch ho hen he hdyn (hmono hs) h h₁)
          fun view₁ hc => ih hes hc hs

/-! ## Cycles -/

/-- The lists of a cycle are opened one after the other. -/
theorem invalidateAll_cached {mems : List MemType} {base : MemType → Option Ptr} (hn : mems.Nodup)
    (hclosed : ∀ mem ∈ mems, base mem = none) (h : s.Cached chunk opt base view) :
    (mems.foldl (fun s mem => s.invalidateCaches mem) s).Cached chunk opt
      (fun mem => if mem ∈ mems then some 0 else base mem) view := by
  induction mems generalizing s base with
  | nil => simpa using h
  | cons mem mems ih =>
    obtain ⟨hno, hn⟩ := List.nodup_cons.mp hn
    obtain ⟨hm, hms⟩ := List.forall_mem_cons.mp hclosed
    have := ih hn (fun m hmem => by
      have hne : m ≠ mem := fun heq => hno (heq ▸ hmem)
      rw [Function.update_of_ne hne]
      exact hms m hmem) (invalidate_cached h hm (some 0))
    have heq : (fun m => if m ∈ mems then some 0 else Function.update base mem (some 0) m) =
        fun m => if m ∈ mem :: mems then some 0 else base m := by
      funext m
      by_cases hmem : m = mem
      · subst hmem
        simp
      · simp [hmem]
    rwa [heq] at this

/-- They are written back one after the other. -/
theorem writeAll_cached {mems : List MemType} {base : MemType → Option Ptr} (hn : mems.Nodup)
    (hopen : ∀ mem ∈ mems, base mem = some 0) (h : s.Cached chunk opt base view) :
    (mems.foldl (fun s mem => s.writeCaches mem) s).Cached chunk opt
      (fun mem => if mem ∈ mems then none else base mem) view := by
  induction mems generalizing s base with
  | nil => simpa using h
  | cons mem mems ih =>
    obtain ⟨hno, hn⟩ := List.nodup_cons.mp hn
    obtain ⟨hm, hms⟩ := List.forall_mem_cons.mp hopen
    have := ih hn (fun m hmem => by
      have hne : m ≠ mem := fun heq => hno (heq ▸ hmem)
      rw [Function.update_of_ne hne]
      exact hms m hmem) (writeCaches_cached h hm)
    have heq : (fun m => if m ∈ mems then none else Function.update base mem none m) =
        fun m => if m ∈ mem :: mems then none else base m := by
      funext m
      by_cases hmem : m = mem
      · subst hmem
        simp
      · simp [hmem]
    rwa [heq] at this

theorem foldl_events {ι : Type} {f : ProcState → ι → ProcState}
    (hf : ∀ s i, (f s i).events = s.events) (l : List ι) : (l.foldl f s).events = s.events := by
  induction l generalizing s with
  | nil => rfl
  | cons i l ih => exact ih.trans (hf s i)

theorem nodup_cycleCaches (opt : Options) : opt.cycleCaches.Nodup := by
  have hlibs : ((List.range opt.libs.length).map MemType.lib).Nodup :=
    List.nodup_range.map fun a b hab => MemType.lib.inj hab
  unfold Options.cycleCaches
  cases opt.valOnStack with
  | false => simpa [List.nodup_append] using hlibs
  | true => simpa [List.nodup_append] using hlibs

/-- **The caches of a cycle are invisible.** What happens in a cycle, done directly on the memory of the
game, gives the memory of the game after the cycle: each value is read as it is then, each wish value is
written at its place and nowhere else, and no store gets lost. -/
theorem processActCfg_direct (hch : chunk ≤ 2 ^ 64) (ho : s.opt.Ordered cfgAct)
    (hclean : s.opt.caches.Clean) (hw : ∀ addr n, s.target.writeOk addr n = true)
    (hs : processActCfg chunk cfgAct s = .ok s') (hsp : s.opt.Spread chunk s'.events) :
    s'.opt.caches.Clean ∧ ∃ evs ptr, s'.events = s.events ++ evs ∧
      Direct.replay s.opt ⟨s.target.mem, 0⟩ evs = some ⟨s'.target.mem, ptr⟩ := by
  unfold processActCfg at hs
  obtain ⟨s₁, h₁, hs⟩ := Run.bind_eq_ok.mp hs
  cases hs
  have hn := nodup_cycleCaches s.opt
  have hstart : s.Cached chunk s.opt (fun _ => none) s.target.mem := by
    refine ⟨⟨.refl _, fun _ => rfl, fun d dm i a hd ha _ => ⟨dm, hd, ha⟩⟩, fun r c b _ _ hb => ?_,
      fun r c hc hd => ?_, .rfl_of_closed (fun r => lines_closed rfl) _, hw⟩
    · cases hb
    · rw [hclean r c hc] at hd
      cases hd
  have hopen := invalidateAll_cached hn (fun _ _ => rfl) (cached_setBuf hstart 0)
  have hquiet : (s.opt.cycleCaches.foldl (fun s mem => s.invalidateCaches mem) (s.setBuf 0)).events =
      s.events := foldl_events (s := s.setBuf 0) (f := fun s mem => s.invalidateCaches mem)
    (fun _ _ => rfl) _
  have hback : (s.opt.cycleCaches.foldl (fun s mem => s.writeCaches mem) s₁).events = s₁.events :=
    foldl_events (f := fun s mem => s.writeCaches mem) (fun _ _ => rfl) _
  rw [hback] at hsp ⊢
  have hsim := processEntries_sim hch ho (fun e he => he) hsp hopen h₁
  obtain ⟨evs, view', ptr, -, he, hr, hc⟩ := hsim 0 trivial
  have hend := writeAll_cached hn (fun mem hm => if_pos hm) hc
  have hbase : (fun mem => if mem ∈ s.opt.cycleCaches then none
      else if mem ∈ s.opt.cycleCaches then some (0 : Ptr) else none) = fun _ => none := by
    funext mem
    split <;> rfl
  rw [hbase] at hend
  have hmem : (s.opt.cycleCaches.foldl (fun s mem => s.writeCaches mem) s₁).target.mem = view' :=
    hend.coherent.eq_of_clean fun r _ => lines_closed rfl
  refine ⟨fun r c hc => ?_, evs, ptr, by rw [he, hquiet], by rw [hmem]; exact hr⟩
  by_contra hd
  exact (hend.dirty r c hc (by simpa using hd)).1 rfl

end Cycle

/-- A static value and a value of a class with two objects, which are to be 7. -/
def ProcState.oneClass : ProcState where
  opt := {
    entries := [
      { (default : CfgEntry) with
        addr := 0x1000
        type := { (default : VType) with size := 32 }
        check := .off
        vals := { (default : EntryVals) with value := 7 }
        cache := some ⟨.opt, 0⟩ },
      { (default : CfgEntry) with
        addr := 8
        type := { (default : VType) with size := 32 }
        check := .off
        dynmem := some 0
        vals := { (default : EntryVals) with vOldval := [0, 0], vValue := [7, 7], vCstr := [none, none] }
        cache := some ⟨.dynmem 0, 0⟩ }]
    dynmems := [{ (default : DynMemEntry) with
      cfgAct := [1], vMaddr := [0x2000, 0x3000], vMsize := [16, 16] }]
    ptrmems := []
    libs := []
    dumps := []
    caches := fun
      | .opt => [⟨0x1000, ptrMax, List.replicate 8 0, false⟩]
      | .dynmem 0 => [⟨8, ptrMax, List.replicate 8 0, false⟩]
      | _ => []
    valOnStack := false
    stackEnd := 0
    codeOffs := 0 }
  target := ⟨fun _ => 1, fun _ _ => true, fun _ _ => true⟩
  buf := 0
  junk := 0
  events := []

theorem oneClass_uses {r : CacheRef} (h : ProcState.oneClass.opt.Uses r) :
    r = ⟨.opt, 0⟩ ∨ r = ⟨.dynmem 0, 0⟩ := by
  obtain ⟨en, hen, h⟩ := h
  simp only [ProcState.oneClass, List.mem_cons, List.not_mem_nil, or_false] at hen
  rcases hen with rfl | rfl
  · rcases h with h | ⟨chk, hchk, -⟩
    · exact .inl (Option.some.inj h).symm
    · exact absurd hchk List.not_mem_nil
  · rcases h with h | ⟨chk, hchk, -⟩
    · exact .inr (Option.some.inj h).symm
    · exact absurd hchk List.not_mem_nil

theorem oneClass_apart {base : MemType → Option Ptr} (hs : base .opt = some 0)
    (hd : ∀ b, base (.dynmem 0) = some b → b = 0x2000 ∨ b = 0x3000) :
    ProcState.oneClass.opt.Apart 8 base := by
  have hopt : ProcState.oneClass.opt.caches.get? ⟨.opt, 0⟩ =
      some ⟨0x1000, ptrMax, List.replicate 8 0, false⟩ := rfl
  have hdyn : ProcState.oneClass.opt.caches.get? ⟨.dynmem 0, 0⟩ =
      some ⟨8, ptrMax, List.replicate 8 0, false⟩ := rfl
  constructor
  · intro r c b hu hc hb
    rcases oneClass_uses hu with rfl | rfl
    · cases hopt.symm.trans hc
      cases hs.symm.trans hb
      decide
    · cases hdyn.symm.trans hc
      rcases hd b hb with rfl | rfl <;> decide
  · intro r r' c c' b b' hne hu hu' hc hc' hb hb'
    rcases oneClass_uses hu with rfl | rfl <;> obtain rfl | rfl := oneClass_uses hu'
    · exact absurd rfl hne
    · cases hopt.symm.trans hc
      cases hdyn.symm.trans hc'
      cases hs.symm.trans hb
      rcases hd b' hb' with rfl | rfl <;> exact disjoint_window (by decide) (by decide)
    · cases hdyn.symm.trans hc
      cases hopt.symm.trans hc'
      cases hs.symm.trans hb'
      rcases hd b hb with rfl | rfl <;> exact disjoint_window (by decide) (by decide)
    · exact absurd rfl hne

theorem processActCfg_direct_example :
    ∃ s', processActCfg 8 [0, 1] .oneClass = .ok s' ∧ s'.opt.caches.Clean ∧
      ∃ evs ptr, s'.events = ProcState.oneClass.events ++ evs ∧
        Direct.replay ProcState.oneClass.opt ⟨ProcState.oneClass.target.mem, 0⟩ evs =
          some ⟨s'.target.mem, ptr⟩ := by
  obtain ⟨s', hs, hev⟩ := Run.exists_ok_of_map (x := processActCfg 8 [0, 1] .oneClass) (f := (·.events))
    (b := [.read 0 none 0x01010101, .store 0 none 7, .read 1 (some 0) 0x01010101, .store 1 (some 0) 7,
      .read 1 (some 1) 0x01010101, .store 1 (some 1) 7]) (by decide +kernel)
  have hget : ∀ {d : Nat} {dm : DynMemEntry}, ProcState.oneClass.opt.dynmems[d]? = some dm →
      d = 0 ∧ dm.cfgAct = [1] ∧ dm.vMaddr = [0x2000, 0x3000] := by
    intro d dm hd
    cases d with
    | zero =>
      cases hd
      exact ⟨rfl, rfl, rfl⟩
    | succ d => cases hd
  refine ⟨s', hs, processActCfg_direct (by decide) ⟨⟨by decide, by decide, ?_, fun _ _ hp => by cases hp⟩, ?_,
    fun _ _ _ _ _ hp => by cases hp⟩ ?_ (fun _ _ => rfl) hs ⟨?_, ?_, ?_⟩⟩
  · intro d dm hd
    obtain ⟨rfl, hact, -⟩ := hget hd
    rw [hact]
    rfl
  · refine ⟨fun en hen _ => ?_, fun en hen hcstr => ?_, fun en hen chk hchk => ?_⟩
    all_goals
      simp only [ProcState.oneClass, List.mem_cons, List.not_mem_nil, or_false] at hen
      rcases hen with rfl | rfl
    · exact ⟨⟨.opt, 0⟩, _, rfl, List.mem_singleton_self _, rfl, by decide⟩
    · exact ⟨⟨.dynmem 0, 0⟩, _, rfl, rfl, rfl, by decide⟩
    · cases hcstr
    · cases hcstr
    · cases hchk
    · cases hchk
  · rintro ⟨mem, idx⟩ c hc
    have hmem : c ∈ ProcState.oneClass.opt.caches mem := List.mem_of_getElem? hc
    cases mem with
    | opt =>
      obtain rfl := List.mem_singleton.mp hmem
      rfl
    | dynmem d =>
      cases d with
      | zero =>
        obtain rfl := List.mem_singleton.mp hmem
        rfl
      | succ d => cases hmem
    | ptrmem | stack | lib => cases hmem
  · refine oneClass_apart (if_pos (List.mem_singleton_self _)) fun b hb => ?_
    rw [staticBase_dynmem] at hb
    cases hb
  · intro d dm i m hd hm h0
    obtain ⟨rfl, -, hmaddr⟩ := hget hd
    have hstatic : ProcState.oneClass.opt.objBase i (some 0) .opt = some 0 := by
      rw [Options.objBase, Function.update_of_ne (by decide)]
      exact if_pos (List.mem_singleton_self _)
    refine oneClass_apart hstatic fun b hb => ?_
    rw [Options.objBase, Function.update_self, hd, Option.bind_some, hm] at hb
    cases hb
    rw [hmaddr] at hm
    exact List.mem_pair.mp (List.mem_of_getElem? hm)
  · rw [hev]
    intro ev hmem
    simp only [List.mem_cons, List.not_mem_nil, or_false] at hmem
    rcases hmem with rfl | rfl | rfl | rfl | rfl | rfl <;> trivial

end UgTrain
