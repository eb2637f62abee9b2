import UgTrain.ClassRule

/-!
# The early ASLR handshake

ugtrain sends one code offset for each item: the class, its constructors and its growth rule
(`handleAslr_spec`). libmemhack reads one for each item, but leaves out the entries without a size
and without a growth rule (`relocCfgs_codeAddrs`). `early_aslr_iff`: the two sides hold the same code
addresses exactly if the offsets fit into the message, and the shift that the entries left out
cause brings every item an offset of the same value.

* All lists of code addresses and offsets go along the items in the order in which they are sent.
* `OffsText` also allows that the message ends in front of its last separator: a message of
  `pipeBuf` characters is cut there.
-/

namespace UgTrain

open CLib

/-! ## The items -/

def DynMemEntry.codeAddrs (dynmem : DynMemEntry) : List Ptr :=
  dynmem.essentials.map (·.codeAddr) ++ dynmem.grow.toList.map (·.codeAddr)

def HackCfg.codeAddrs (cfg : HackCfg) : List Ptr :=
  cfg.codeAddr :: cfg.grow.toList.map (·.codeAddr)

/-- For each item of an entry whether libmemhack reads no offset for it. -/
def HackCfg.skips (cfg : HackCfg) : List Bool :=
  cfg.noMem :: cfg.grow.toList.map fun _ => false

def CfgMem.codeAddrs (cfg : CfgMem) : List Ptr := cfg.classes.flatMap (·.codeAddrs)

def CfgMem.offsets (l : LoadAddrs) (cfg : CfgMem) : List Ptr :=
  cfg.classes.flatMap (·.offsets l)

def CfgMem.skips (cfg : CfgMem) : List Bool := cfg.hackCfgs.flatMap (·.skips)

/-- The text of the offsets. -/
def offsText (offs : List Ptr) : Str := (offs.map fun o => printHex o ++ [';']).flatten

@[simp] theorem offsText_nil : offsText [] = [] := rfl

theorem offsText_cons (o : Ptr) (offs : List Ptr) :
    offsText (o :: offs) = printHex o ++ ';' :: offsText offs := by
  simp [offsText]

theorem offsText_append (l l' : List Ptr) : offsText (l ++ l') = offsText l ++ offsText l' := by
  simp [offsText]

theorem codeAddrs_attachGrow (grow : Option HackGrow) {cfgs : List HackCfg} (hne : cfgs ≠ [])
    (hno : ∀ cfg ∈ cfgs, cfg.grow = none) :
    (attachGrow grow cfgs).flatMap (·.codeAddrs) =
      cfgs.map (·.codeAddr) ++ grow.toList.map (·.codeAddr) := by
  induction cfgs with
  | nil => exact absurd rfl hne
  | cons cfg cfgs ih =>
    cases cfgs with
    | nil => simp [attachGrow, HackCfg.codeAddrs]
    | cons cfg' cfgs =>
      have hg : cfg.grow = none := hno cfg (by simp)
      have ih := ih (by simp) fun c hc => hno c (by simp [hc])
      rw [attachGrow, List.flatMap_cons, ih]
      simp [HackCfg.codeAddrs, hg]

theorem hackCfgs_codeAddrs (dynmem : DynMemEntry) :
    dynmem.hackCfgs.flatMap (·.codeAddrs) = dynmem.codeAddrs := by
  rw [DynMemEntry.hackCfgs, codeAddrs_attachGrow _ (by simp [DynMemEntry.essentials]),
    DynMemEntry.codeAddrs, List.map_map]
  · cases dynmem.grow <;> rfl
  · intro cfg hcfg
    obtain ⟨es, -, rfl⟩ := List.mem_map.mp hcfg
    rfl

theorem codeAddrs_eq (cfg : CfgMem) : cfg.hackCfgs.flatMap (·.codeAddrs) = cfg.codeAddrs := by
  rw [CfgMem.hackCfgs, List.flatMap_assoc, CfgMem.codeAddrs]
  exact congrArg (cfg.classes.flatMap ·) (funext hackCfgs_codeAddrs)

theorem offsets_length (l : LoadAddrs) (dynmem : DynMemEntry) :
    (dynmem.offsets l).length = dynmem.codeAddrs.length := by
  simp [DynMemEntry.offsets, DynMemEntry.codeAddrs, DynMemEntry.essentials]

theorem skips_length (cfg : HackCfg) : cfg.skips.length = cfg.codeAddrs.length := by
  simp [HackCfg.skips, HackCfg.codeAddrs]

/-! ## ugtrain -/

section Send

variable {l : LoadAddrs} {cfg : CfgMem}

theorem mem_classRefs {es : List CfgEntry} {old : Option Nat} {d : Nat}
    (h : d ∈ classRefs old es) : Refs es d := by
  induction es generalizing old with
  | nil => cases h
  | cons en es ih =>
    rw [classRefs] at h
    split at h
    · exact List.mem_cons_of_mem _ (ih h)
    · rename_i d' hd'
      split at h
      · exact List.mem_cons_of_mem _ (ih h)
      · rcases List.mem_cons.mp h with rfl | h
        · simp [Refs, hd']
        · exact List.mem_cons_of_mem _ (ih h)

/-- **No class is taken twice**, since the entries of a class stand together. -/
theorem classRefs_sorted {es : List CfgEntry} (hs : (es.filterMap (·.dynmem)).Pairwise (· ≤ ·)) :
    ∀ old : Option Nat, (∀ d' ∈ old, ∀ d, Refs es d → d' ≤ d) →
      (classRefs old es).Pairwise (· < ·) ∧ ∀ d' ∈ old, ∀ d ∈ classRefs old es, d' < d := by
  induction es with
  | nil => intro old _; simp [classRefs]
  | cons en es ih =>
    intro old hold
    have hold' : ∀ d' ∈ old, ∀ d, Refs es d → d' ≤ d :=
      fun d' hd' d hd => hold d' hd' d (List.mem_cons_of_mem _ hd)
    cases hen : en.dynmem with
    | none =>
      rw [List.filterMap_cons_none hen] at hs
      simpa only [classRefs, hen] using ih hs old hold'
    | some d =>
      rw [List.filterMap_cons_some hen, List.pairwise_cons] at hs
      simp only [classRefs, hen]
      split
      · exact ih hs.2 old hold'
      · rename_i hne
        have hle : ∀ d' ∈ some d, ∀ x, Refs es x → d' ≤ x := by
          intro d' hd' x hx
          cases hd'
          obtain ⟨en', hen', hx'⟩ := List.mem_map.mp hx
          exact hs.1 x (List.mem_filterMap.mpr ⟨en', hen', hx'⟩)
        obtain ⟨hpair, hgt⟩ := ih hs.2 (some d) hle
        have hdold : ∀ d' ∈ old, d' < d := by
          intro d' hd'
          have hle' : d' ≤ d := hold d' hd' d (by simp [Refs, hen])
          exact lt_of_le_of_ne hle' fun heq => hne (by rw [← heq]; exact hd'.symm)
        refine ⟨List.pairwise_cons.mpr ⟨hgt d rfl, hpair⟩, fun d' hd' x hx => ?_⟩
        rcases List.mem_cons.mp hx with rfl | hx
        · exact hdold d' hd'
        · exact (hdold d' hd').trans (hgt d rfl x hx)

theorem foldlM_addOffsText (offs : List Ptr) : ∀ obuf : Str,
    (∀ obuf', offs.foldlM addOffsText obuf = .ok obuf' → obuf' = obuf ++ offsText offs) ∧
      ((obuf ++ offsText offs).length ≤ pipeBuf →
        offs.foldlM addOffsText obuf = .ok (obuf ++ offsText offs)) := by
  induction offs with
  | nil =>
    intro obuf
    refine ⟨fun obuf' h => ?_, fun _ => by simp [pure, Except.pure]⟩
    cases h
    simp
  | cons o offs ih =>
    intro obuf
    have happ : obuf ++ offsText (o :: offs) = obuf ++ (printHex o ++ [';']) ++ offsText offs := by
      simp [offsText_cons]
    rw [List.foldlM_cons, addOffsText, happ]
    by_cases hfit : obuf.length ≤ pipeBuf
    · rw [if_pos hfit]
      exact ih _
    · rw [if_neg hfit]
      refine ⟨fun obuf' h => (by cases h), fun hlen => absurd ?_ hfit⟩
      simp only [List.length_append] at hlen
      omega

/-- The offsets of the classes that are still to come. -/
def AslrState.pending (l : LoadAddrs) (st : AslrState) (es : List CfgEntry) : List Ptr :=
  ((classRefs st.oldDynmem es).filterMap (st.dynmems[·]?)).flatMap (·.offsets l)

/-- **The loop of `handle_aslr`**: it prints the offsets of the classes to come and relocates just
these classes, if the text fits. -/
theorem handle_fold (es : List CfgEntry) : ∀ st : AslrState,
    (classRefs st.oldDynmem es).Nodup → (∀ d, Refs es d → d < st.dynmems.length) →
      (∀ st', es.foldlM (AslrState.step l) st = .ok st' →
        st'.obuf = st.obuf ++ offsText (st.pending l es) ∧
          ∀ d, st'.dynmems[d]? = if d ∈ classRefs st.oldDynmem es
            then (st.dynmems[d]?).map (·.reloc l) else st.dynmems[d]?) ∧
      ((st.obuf ++ offsText (st.pending l es)).length ≤ pipeBuf →
        ∃ st', es.foldlM (AslrState.step l) st = .ok st') := by
  induction es with
  | nil =>
    intro st _ _
    refine ⟨fun st' h => ?_, fun _ => ⟨st, rfl⟩⟩
    cases h
    simp [AslrState.pending, classRefs]
  | cons en es ih =>
    intro st hnd hv
    have hv' : ∀ d, Refs es d → d < st.dynmems.length := fun d hd => hv d (List.mem_cons_of_mem _ hd)
    rw [List.foldlM_cons]
    cases hen : en.dynmem with
    | none =>
      have hstep : AslrState.step l st en = .ok st := by simp [AslrState.step, hen]
      have hrefs : classRefs st.oldDynmem (en :: es) = classRefs st.oldDynmem es := by
        simp only [classRefs, hen]
      rw [hstep, Run.ok_bind]
      simp only [AslrState.pending, hrefs] at hnd ⊢
      exact ih st hnd hv'
    | some d =>
      have hlt := hv d (by simp [Refs, hen])
      obtain ⟨dm, hd⟩ : ∃ dm, st.dynmems[d]? = some dm := ⟨_, List.getElem?_eq_getElem hlt⟩
      by_cases hold : some d = st.oldDynmem
      · have hstep : AslrState.step l st en = .ok st := by
          simp [AslrState.step, hen, hd, ← hold]
        have hrefs : classRefs st.oldDynmem (en :: es) = classRefs st.oldDynmem es := by
          simp only [classRefs, hen, if_pos hold]
        rw [hstep, Run.ok_bind]
        simp only [AslrState.pending, hrefs] at hnd ⊢
        exact ih st hnd hv'
      · have hrefs : classRefs st.oldDynmem (en :: es) = d :: classRefs (some d) es := by
          simp only [classRefs, hen, if_neg hold]
        have hstep : AslrState.step l st en = ((dm.offsets l).foldlM addOffsText st.obuf).bind
            fun obuf => .ok ⟨obuf, st.dynmems.set d (dm.reloc l), some d⟩ := by
          simp [AslrState.step, hen, hd, hold]
          rfl
        rw [hrefs, List.nodup_cons] at hnd
        obtain ⟨hout, hfit⟩ := foldlM_addOffsText (dm.offsets l) st.obuf
        -- The classes to come are not the one that is relocated here.
        have hpend : ∀ obuf, AslrState.pending l ⟨obuf, st.dynmems.set d (dm.reloc l), some d⟩ es =
            ((classRefs (some d) es).filterMap (st.dynmems[·]?)).flatMap (·.offsets l) := by
          intro obuf
          refine congrArg (List.flatMap _) (List.filterMap_congr fun x hx => ?_)
          have hne : d ≠ x := by rintro rfl; exact hnd.1 hx
          exact List.getElem?_set_ne hne
        have hsplit : st.pending l (en :: es) = dm.offsets l ++
            ((classRefs (some d) es).filterMap (st.dynmems[·]?)).flatMap (·.offsets l) := by
          rw [AslrState.pending, hrefs, List.filterMap_cons_some hd, List.flatMap_cons]
        have ih := fun obuf => ih ⟨obuf, st.dynmems.set d (dm.reloc l), some d⟩ hnd.2
          (by simpa using hv')
        simp only [hpend] at ih
        rw [hstep, hsplit, offsText_append, ← List.append_assoc]
        constructor
        · intro st' h
          obtain ⟨st₁, h₁, h₂⟩ := Run.bind_eq_ok.mp h
          obtain ⟨obuf, hobuf, h₁⟩ := Run.bind_eq_ok.mp h₁
          cases h₁
          obtain ⟨hst, hdm⟩ := (ih obuf).1 st' h₂
          refine ⟨by rw [hst, hout obuf hobuf], fun x => ?_⟩
          rw [hdm x, hrefs]
          simp only [List.mem_cons]
          by_cases hx : x = d
          · subst hx
            rw [if_neg hnd.1, if_pos (Or.inl rfl), List.getElem?_set_self hlt, hd]
            rfl
          · rw [List.getElem?_set_ne (Ne.symm hx)]
            simp only [hx, false_or]
        · intro hlen
          have hle : (st.obuf ++ offsText (dm.offsets l)).length ≤ pipeBuf := by
            rw [List.length_append] at hlen
            omega
          rw [hfit hle]
          exact (ih _).2 hlen

theorem reloc_codeAddrs (l : LoadAddrs) (dynmem : DynMemEntry) :
    (dynmem.reloc l).codeAddrs = List.zipWith (· + ·) dynmem.codeAddrs (dynmem.offsets l) := by
  have hmap : ∀ es : List DynMemEssentials,
      (es.map fun e => e.reloc (l.codeOffs e.lib)).map (·.codeAddr) =
        List.zipWith (· + ·) (es.map (·.codeAddr)) (es.map fun e => l.codeOffs e.lib) := by
    intro es
    simp [List.zipWith_map, DynMemEssentials.reloc, List.zipWith_self]
  unfold DynMemEntry.codeAddrs DynMemEntry.offsets DynMemEntry.essentials DynMemEntry.reloc
  simp only [List.map_cons, List.cons_append, List.zipWith_cons_cons, hmap]
  rw [List.zipWith_append (by simp)]
  cases dynmem.grow <;> rfl

/-- The codes addresses of all classes after the relocation. -/
theorem codeAddrs_reloc (l : LoadAddrs) (classes : List DynMemEntry) :
    (classes.map (·.reloc l)).flatMap (·.codeAddrs) =
      List.zipWith (· + ·) (classes.flatMap (·.codeAddrs)) (classes.flatMap (·.offsets l)) := by
  induction classes with
  | nil => rfl
  | cons dm classes ih =>
    simp only [List.map_cons, List.flatMap_cons, ih, reloc_codeAddrs]
    rw [List.zipWith_append (offsets_length l dm).symm]

/-- What is written to the FIFO. -/
def sentOffs (offs : List Ptr) : Str :=
  (snprintfBytes pipeBuf (offsText offs)).take (offsText offs).length

/-- `handle_aslr` relocates every class that has an entry. -/
theorem handleAslr_classes (h : cfg.WellFormed) {l : LoadAddrs} {cfg' : CfgMem} {text : Str}
    (hok : handleAslr l cfg = .ok (cfg', text)) :
    cfg'.entries = cfg.entries ∧ cfg'.classes = cfg.classes.map (·.reloc l) ∧
      ∀ d, Refs cfg.entries d → d < cfg'.dynmems.length := by
  have hnd : (classRefs none cfg.entries).Nodup :=
    ((classRefs_sorted h.sorted none (by simp)).1).imp Nat.ne_of_lt
  obtain ⟨st, hst, hok⟩ := Run.bind_eq_ok.mp hok
  obtain ⟨text', -, hok⟩ := Run.bind_eq_ok.mp hok
  cases hok
  have hdm := ((handle_fold cfg.entries ⟨[], cfg.dynmems, none⟩ hnd h.valid).1 st hst).2
  refine ⟨rfl, ?_, fun d hd => ?_⟩
  · rw [CfgMem.classes, CfgMem.classes, List.map_filterMap]
    refine List.filterMap_congr fun d hd => ?_
    rw [hdm d, if_pos hd]
  · by_contra hge
    have hnone := hdm d
    have hlt := h.valid d hd
    rw [List.getElem?_eq_none (not_lt.mp hge), List.getElem?_eq_getElem hlt] at hnone
    split at hnone <;> cases hnone

/-- **What `handle_aslr` does**: if the offsets of all items fit, it sends them in the order of the
items and relocates all classes; otherwise it leaves its buffer. -/
theorem handleAslr_spec (h : cfg.WellFormed) (l : LoadAddrs) :
    (∀ cfg' text, handleAslr l cfg = .ok (cfg', text) →
      (offsText (cfg.offsets l)).length ≤ pipeBuf ∧ text = sentOffs (cfg.offsets l) ∧
        cfg'.codeAddrs = List.zipWith (· + ·) cfg.codeAddrs (cfg.offsets l)) ∧
      ((offsText (cfg.offsets l)).length ≤ pipeBuf →
        ∃ cfg' text, handleAslr l cfg = .ok (cfg', text)) := by
  have hnd : (classRefs none cfg.entries).Nodup :=
    ((classRefs_sorted h.sorted none (by simp)).1).imp Nat.ne_of_lt
  obtain ⟨hout, hfit⟩ := handle_fold (l := l) cfg.entries ⟨[], cfg.dynmems, none⟩ hnd h.valid
  have hpend : AslrState.pending l ⟨[], cfg.dynmems, none⟩ cfg.entries = cfg.offsets l := rfl
  rw [hpend, List.nil_append] at hout hfit
  constructor
  · intro cfg' text hok
    have hclasses := (handleAslr_classes h hok).2.1
    obtain ⟨st, hst, hok⟩ := Run.bind_eq_ok.mp hok
    obtain ⟨text', hw, hok⟩ := Run.bind_eq_ok.mp hok
    cases hok
    obtain ⟨hobuf, -⟩ := hout st hst
    unfold writeOffs at hw
    split at hw
    · rename_i hlen
      cases hw
      rw [hobuf] at hlen ⊢
      refine ⟨hlen, rfl, ?_⟩
      rw [CfgMem.codeAddrs, hclasses, codeAddrs_reloc]
      rfl
    · cases hw
  · intro hlen
    obtain ⟨st, hst⟩ := hfit hlen
    obtain ⟨hobuf, -⟩ := hout st hst
    refine ⟨{ cfg with dynmems := st.dynmems }, sentOffs (cfg.offsets l), ?_⟩
    rw [handleAslr, hst, Run.ok_bind, hobuf, writeOffs, if_pos hlen]
    rfl

end Send

/-! ## libmemhack -/

/-- The text starts with these offsets. The separator behind the last one may be missing. -/
inductive OffsText : List Ptr → Str → Prop
  | nil (s : Str) : OffsText [] s
  | last (o : Ptr) : OffsText [o] (printHex o)
  | cons (o : Ptr) {offs : List Ptr} {s : Str} (h : OffsText offs s) :
      OffsText (o :: offs) (printHex o ++ ';' :: s)

/-- The next offset. -/
theorem OffsText.read {o : Ptr} {offs : List Ptr} {s : Str} (h : OffsText (o :: offs) s) :
    ∃ s', readOffs s = (o, s') ∧ OffsText offs s' := by
  cases h with
  | last =>
    have hscan : scanPtr (printHex o ++ []) = some (o, []) :=
      scanPtr_printHex o (by simp [NoDigit]) (by simp)
    rw [List.append_nil] at hscan
    refine ⟨setIbufStart (printHex o), ?_, .nil _⟩
    rw [readOffs, hscan]
  | cons _ h =>
    refine ⟨_, ?_, h⟩
    rw [readOffs, scanPtr_sep]
    simp only [setIbufStart_sep (clean_printHex o)]

theorem offsText_spec (offs : List Ptr) : OffsText offs (offsText offs) := by
  induction offs with
  | nil => exact .nil _
  | cons o offs ih =>
    rw [offsText_cons]
    exact .cons o ih

/-- Without its last separator the text still stands for its offsets. -/
theorem offsText_dropLast (offs : List Ptr) : OffsText offs (offsText offs).dropLast := by
  induction offs with
  | nil => exact .nil _
  | cons o offs ih =>
    rw [offsText_cons]
    cases offs with
    | nil =>
      have hlast : (printHex o ++ ';' :: offsText []).dropLast = printHex o :=
        List.dropLast_concat
      rw [hlast]
      exact .last o
    | cons o' offs =>
      have hne : offsText (o' :: offs) ≠ [] := by simp [offsText_cons]
      have hsplit : (printHex o ++ ';' :: offsText (o' :: offs)).dropLast =
          printHex o ++ ';' :: (offsText (o' :: offs)).dropLast := by
        rw [List.dropLast_append_of_ne_nil (by simp), List.dropLast_cons_of_ne_nil hne]
      rw [hsplit]
      exact .cons o ih

/-- **libmemhack gets all offsets**, also from a message whose end was cut off. -/
theorem readInput_sentOffs {offs : List Ptr} (h : (offsText offs).length ≤ pipeBuf) :
    OffsText offs (readInput (sentOffs offs)) := by
  have hread : readInput (sentOffs offs) = (offsText offs).take (pipeBuf - 1) := by
    have hlen : min (bufSize - 1) (offsText offs).length =
        ((offsText offs).take (pipeBuf - 1)).length := by rw [List.length_take]; rfl
    rw [readInput, sentOffs, snprintfBytes, if_neg (by decide), List.take_take, hlen]
    exact List.take_left
  rw [hread]
  by_cases hlt : (offsText offs).length ≤ pipeBuf - 1
  · rw [List.take_of_length_le hlt]
    exact offsText_spec offs
  · have hlen : (offsText offs).length = pipeBuf := by omega
    rw [← hlen, ← List.dropLast_eq_take]
    exact offsText_dropLast offs

/-- The code addresses after the offsets were added to the items that are not left out. -/
def relocAddrs : List (Bool × Ptr) → List Ptr → List Ptr
  | [], _ => []
  | (true, a) :: items, offs => a :: relocAddrs items offs
  | (false, a) :: items, offs => addOffs a (offs.headD 0) :: relocAddrs items offs.tail

theorem relocAddrs_getElem? (items : List (Bool × Ptr)) : ∀ (offs : List Ptr) (k : Nat),
    (relocAddrs items offs)[k]? = items[k]?.map fun item =>
      if item.1 then item.2
      else addOffs item.2 ((offs[((items.take k).map (·.1)).count false]?).getD 0) := by
  induction items with
  | nil => intro offs k; simp [relocAddrs]
  | cons item items ih =>
    intro offs k
    obtain ⟨b, a⟩ := item
    cases b <;> cases k with
    | zero => simp [relocAddrs, List.head?_eq_getElem?]
    | succ k => simp [relocAddrs, ih]

def HackCfg.items (cfg : HackCfg) : List (Bool × Ptr) := cfg.skips.zip cfg.codeAddrs

/-- **The loop of `memhack_init` over the code offsets.** -/
theorem relocCfgs_codeAddrs (cfgs : List HackCfg) : ∀ (offs : List Ptr) (s : Str),
    OffsText offs s → (cfgs.flatMap (·.skips)).count false ≤ offs.length →
      (relocCfgs cfgs s).flatMap (·.codeAddrs) = relocAddrs (cfgs.flatMap (·.items)) offs := by
  induction cfgs with
  | nil => intro offs s _ _; rfl
  | cons cfg cfgs ih =>
    intro offs s hs hlen
    rw [List.flatMap_cons, List.count_append] at hlen
    rw [relocCfgs, List.flatMap_cons, List.flatMap_cons]
    cases hno : cfg.noMem with
    | true =>
      obtain ⟨hsize, hgrow⟩ : cfg.memSize = 0 ∧ cfg.grow = none := by
        simpa [HackCfg.noMem] using hno
      have ih := ih offs s hs (by omega)
      simp only [relocCfg, hno, if_true, ih]
      simp [HackCfg.items, HackCfg.skips, HackCfg.codeAddrs, hno, hgrow, relocAddrs]
    | false =>
      -- One offset for the entry, and one more for its growth rule.
      cases hgrow : cfg.grow with
      | none =>
        have hskips : cfg.skips = [false] := by simp [HackCfg.skips, hno, hgrow]
        rw [hskips] at hlen
        obtain ⟨o, offs, rfl⟩ : ∃ o offs', offs = o :: offs' :=
          List.exists_cons_of_length_pos (by simp at hlen; omega)
        obtain ⟨s₁, hread, hs₁⟩ := hs.read
        have ih := ih offs s₁ hs₁ (by simp at hlen; omega)
        simp only [relocCfg, hno, hgrow, hread, Bool.false_eq_true, if_false, ih]
        simp [HackCfg.items, hskips, HackCfg.codeAddrs, hgrow, relocAddrs]
      | some grow =>
        have hskips : cfg.skips = [false, false] := by simp [HackCfg.skips, hno, hgrow]
        rw [hskips] at hlen
        obtain ⟨o, offs, rfl⟩ : ∃ o offs', offs = o :: offs' :=
          List.exists_cons_of_length_pos (by simp at hlen; omega)
        obtain ⟨o', offs, rfl⟩ : ∃ o offs', offs = o :: offs' :=
          List.exists_cons_of_length_pos (by simp at hlen; omega)
        obtain ⟨s₁, hread, hs₁⟩ := hs.read
        obtain ⟨s₂, hread', hs₂⟩ := hs₁.read
        have ih := ih offs s₂ hs₂ (by simp at hlen; omega)
        simp only [relocCfg, hno, hgrow, hread, hread', Bool.false_eq_true, if_false, ih]
        simp [HackCfg.items, hskips, HackCfg.codeAddrs, hgrow, relocAddrs]

/-- A config of a single entry that is left out does not read the offsets, and would not use
them. -/
theorem relocConfig_eq (config : List HackCfg) (ibuf : Str) :
    relocConfig config ibuf = relocCfgs config ibuf := by
  unfold relocConfig
  split
  · split
    · rename_i cfg hno
      simp [relocCfgs, relocCfg, hno]
    · rfl
  · rfl

theorem items_eq_zip (cfgs : List HackCfg) :
    cfgs.flatMap (·.items) = (cfgs.flatMap (·.skips)).zip (cfgs.flatMap (·.codeAddrs)) := by
  induction cfgs with
  | nil => rfl
  | cons cfg cfgs ih =>
    rw [List.flatMap_cons, List.flatMap_cons, List.flatMap_cons, ih,
      List.zip_append (skips_length cfg)]
    rfl

/-! ## Agreement -/

section Agree

variable {cfg : CfgMem} {l : LoadAddrs}

theorem length_skips (cfg : CfgMem) : cfg.skips.length = cfg.codeAddrs.length := by
  rw [← codeAddrs_eq, CfgMem.skips, List.length_flatMap, List.length_flatMap]
  exact congrArg List.sum (List.map_congr_left fun c _ => skips_length c)

theorem length_offsets (l : LoadAddrs) (cfg : CfgMem) :
    (cfg.offsets l).length = cfg.codeAddrs.length := by
  rw [CfgMem.offsets, CfgMem.codeAddrs, List.length_flatMap, List.length_flatMap]
  exact congrArg List.sum (List.map_congr_left fun dm _ => offsets_length l dm)

/-- libmemhack's code addresses after it has read the offsets. -/
theorem relocConfig_codeAddrs (h : (offsText (cfg.offsets l)).length ≤ pipeBuf) :
    (relocConfig cfg.hackCfgs (readInput (sentOffs (cfg.offsets l)))).flatMap (·.codeAddrs) =
      relocAddrs (cfg.skips.zip cfg.codeAddrs) (cfg.offsets l) := by
  have hcount : cfg.skips.count false ≤ (cfg.offsets l).length := by
    rw [length_offsets, ← length_skips]
    exact List.count_le_length
  rw [relocConfig_eq, relocCfgs_codeAddrs _ _ _ (readInput_sentOffs h) hcount, items_eq_zip,
    codeAddrs_eq]
  rfl

/-- Both sides hold the same code address for each item that has one in the config. -/
def CodeAddrsAgree (cfg cfg' : CfgMem) (config : List HackCfg) : Prop :=
  ∀ (k : Nat) (a : Ptr), cfg.codeAddrs[k]? = some a → a ≠ 0 →
    (config.flatMap (·.codeAddrs))[k]? = cfg'.codeAddrs[k]?

/-- The offset that reaches the item `k`: none if it is left out, and otherwise the first one that
the items before it have not taken. -/
def CfgMem.reachOffs (l : LoadAddrs) (cfg : CfgMem) (k : Nat) : Ptr :=
  if cfg.skips[k]? = some true then 0
  else ((cfg.offsets l)[(cfg.skips.take k).count false]?).getD 0

/-- The offsets fit into the message, and each item is reached by the value of its own one. -/
structure CfgMem.OffsReach (l : LoadAddrs) (cfg : CfgMem) : Prop where
  fits : (offsText (cfg.offsets l)).length ≤ pipeBuf
  same : ∀ (k : Nat) (a : Ptr), cfg.codeAddrs[k]? = some a → a ≠ 0 →
    (cfg.offsets l)[k]? = some (cfg.reachOffs l k)

/-- Both code addresses of an item are its code address in the config and an offset. -/
theorem codeAddr_item {k : Nat} {a : Ptr} (ha : cfg.codeAddrs[k]? = some a) (hne : a ≠ 0) :
    (relocAddrs (cfg.skips.zip cfg.codeAddrs) (cfg.offsets l))[k]? =
        some (a + cfg.reachOffs l k) ∧
      ∃ o, (cfg.offsets l)[k]? = some o ∧
        (List.zipWith (· + ·) cfg.codeAddrs (cfg.offsets l))[k]? = some (a + o) := by
  obtain ⟨hk, -⟩ := List.getElem?_eq_some_iff.mp ha
  obtain ⟨o, ho⟩ : ∃ o, (cfg.offsets l)[k]? = some o :=
    ⟨_, List.getElem?_eq_getElem (by rw [length_offsets]; exact hk)⟩
  obtain ⟨b, hb⟩ : ∃ b, cfg.skips[k]? = some b :=
    ⟨_, List.getElem?_eq_getElem (by rw [length_skips]; exact hk)⟩
  have hzip : (cfg.skips.zip cfg.codeAddrs)[k]? = some (b, a) := by
    rw [List.getElem?_zip_eq_some]
    exact ⟨hb, ha⟩
  have htake : ((cfg.skips.zip cfg.codeAddrs).take k).map (·.1) = cfg.skips.take k := by
    rw [List.map_take]
    exact congrArg (List.take k) (List.map_fst_zip (length_skips cfg).le)
  constructor
  · rw [relocAddrs_getElem?, hzip, htake, CfgMem.reachOffs, hb]
    have hadd : ∀ o, addOffs a o = a + o := fun o => if_pos hne
    cases b <;> simp [hadd]
  · refine ⟨o, ho, ?_⟩
    rw [List.getElem?_zipWith, ha, ho]

/-- **The early ASLR handshake.** After ugtrain has sent the config and then the code offsets, the
code addresses agree exactly if all offsets fit and each item is reached by its own offset. -/
theorem early_aslr_iff (h : cfg.WellFormed) (hc : cfg.CleanLibs) {useGbt : Bool} {text : Str}
    (hp : prepareDynmem useGbt cfg = some text) (l : LoadAddrs) :
    (∃ cfg' offs config, handleAslr l cfg = .ok (cfg', offs) ∧
        readConfig (readInput text) = some (useGbt, config) ∧
        CodeAddrsAgree cfg cfg' (relocConfig config (readInput offs))) ↔
      cfg.OffsReach l := by
  obtain ⟨hout, hfit⟩ := handleAslr_spec h l
  have hread := readConfig_prepareDynmem h hc hp
  constructor
  · rintro ⟨cfg', offs, config, hok, hconfig, hagree⟩
    obtain ⟨hlen, rfl, haddrs⟩ := hout cfg' offs hok
    obtain rfl : cfg.hackCfgs = config := by simpa [hread] using hconfig
    refine ⟨hlen, fun k a ha hne => ?_⟩
    obtain ⟨hhack, o, ho, hugt⟩ := codeAddr_item (l := l) ha hne
    have heq := hagree k a ha hne
    rw [relocConfig_codeAddrs hlen, haddrs, hhack, hugt] at heq
    have heq : a + cfg.reachOffs l k = a + o := Option.some.inj heq
    rw [ho, (BitVec.add_right_inj a).mp heq]
  · rintro ⟨hlen, hsame⟩
    obtain ⟨cfg', offs, hok⟩ := hfit hlen
    obtain ⟨-, rfl, haddrs⟩ := hout cfg' offs hok
    refine ⟨cfg', _, cfg.hackCfgs, hok, hread, fun k a ha hne => ?_⟩
    obtain ⟨hhack, o, ho, hugt⟩ := codeAddr_item (l := l) ha hne
    rw [relocConfig_codeAddrs hlen, haddrs, hhack, hugt]
    have heq := hsame k a ha hne
    rw [ho] at heq
    rw [Option.some.inj heq]

end Agree

/-! ## A class with a growth rule -/

/-- One class and one entry of it. -/
def CfgMem.single (dynmem : DynMemEntry) : CfgMem where
  entries := [{ (default : CfgEntry) with dynmem := some 0 }]
  dynmems := [dynmem]
  ptrmems := []

theorem single_wellFormed {dynmem : DynMemEntry} (hkey : dynmem.key ≠ none)
    (hes : ∀ es ∈ dynmem.essentials, es.memSize.toNat < 2 ^ 32)
    (hgrow : ∀ grow ∈ dynmem.grow, grow.sizeMin.toNat < 2 ^ 32 ∧ grow.sizeMax.toNat < 2 ^ 32) :
    (CfgMem.single dynmem).WellFormed where
  sorted := by simp [CfgMem.single]
  valid := by simp [CfgMem.single, Refs]
  key_ne := by simpa [CfgMem.single] using hkey
  key_inj := by
    intro d d' dm dm' hd hd' _
    have hlt := (List.getElem?_eq_some_iff.mp hd).1
    have hlt' := (List.getElem?_eq_some_iff.mp hd').1
    simp only [CfgMem.single, List.length_singleton] at hlt hlt'
    omega
  sizes := by
    intro dm hdm
    obtain rfl := List.mem_singleton.mp hdm
    exact ⟨hes, hgrow⟩

/-- A class that starts with its growth rule has no size and no code address of its own. -/
def DynMemEntry.fromGrow (consts : List DynMemEssentials) : DynMemEntry :=
  { (default : DynMemEntry) with
    memSize := 0
    codeAddr := 0
    lib := none
    consts := consts
    grow := some ⟨16, 64, .add, 8, 0x700, 0x700, 8, some ⟨1, "liba.so".toList⟩⟩ }

/-- The executable and one library. -/
def LoadAddrs.exeAndLib : LoadAddrs := ⟨0x1000, [⟨0x5000, 0x1000, .code, true, "/lib/liba.so".toList⟩]⟩

theorem early_aslr_iff_example : ∃ c text,
    ConfigState.readConfig CfgReader.noFloats 8 0 "game.conf".toList none ConfigState.threeClasses =
        some (.ok c) ∧ prepareDynmem false c.opt.toCfgMem = some text ∧
      ((∃ cfg' offs config, handleAslr .exeAndLib c.opt.toCfgMem = .ok (cfg', offs) ∧
          readConfig (readInput text) = some (false, config) ∧
          CodeAddrsAgree c.opt.toCfgMem cfg' (relocConfig config (readInput offs))) ↔
        c.opt.OffsReach .exeAndLib) := by
  obtain ⟨c, hread, hc⟩ := ConfigState.exists_read ConfigState.threeClasses
    (fun c => decide c.opt.CleanLibs && (prepareDynmem false c.opt.toCfgMem).isSome)
    (by decide +kernel)
  obtain ⟨hclean, htext⟩ := Bool.and_eq_true_iff.mp hc
  obtain ⟨text, htext⟩ := Option.isSome_iff_exists.mp htext
  exact ⟨c, text, hread, htext, early_aslr_iff (ConfigState.readConfig_wellFormed hread)
    (of_decide_eq_true hclean) htext _⟩

/-- The constructor of a class that starts with its growth rule. -/
def DynMemEntry.growConst : DynMemEntry :=
  .fromGrow [⟨64, 0x500, 0x500, 8, some ⟨2, []⟩⟩]

/-- The class entry is left out, so that the growth rule gets the offset of the constructor. -/
theorem early_aslr_disagrees :
    (CfgMem.single .growConst).WellFormed ∧ (CfgMem.single .growConst).CleanLibs ∧
      ∃ text cfg' offs config, prepareDynmem false (.single .growConst) = some text ∧
        handleAslr .exeAndLib (.single .growConst) = .ok (cfg', offs) ∧
        readConfig (readInput text) = some (false, config) ∧
        ¬ CodeAddrsAgree (.single .growConst) cfg' (relocConfig config (readInput offs)) := by
  refine ⟨single_wellFormed (by decide) (by decide) (by decide), ?_,
    "2;0;0x0;0x0;exe;64;0x500;0x8;;grow;16;64;+8;0x700;0x8;liba.so\n\x00".toList,
    .single (DynMemEntry.growConst.reloc .exeAndLib), "0x1000;0x1000;0x5000;".toList,
    (CfgMem.single .growConst).hackCfgs, by decide, by decide, by decide, ?_⟩
  · unfold CfgMem.CleanLibs
    decide
  · intro hagree
    have h := hagree 2 0x700 (by decide) (by decide)
    revert h
    decide

end UgTrain
