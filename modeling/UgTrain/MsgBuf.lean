import UgTrain.CLib.OutBuf
import UgTrain.EarlyAslr

/-!
# The buffers of the messages (`prepare_dynmem`, `handle_aslr`)

`prepareDynmem` and `handleAslr` describe the messages as texts. Here the same functions print them
into their buffers of `PIPE_BUF` bytes: `prepareBuf` with the counter `pos`, `handleAslrBuf` with the
counter `osize`. Both add what `snprintf` returns without looking whether the text was cut off;
`prepare_dynmem` looks at the end, `handle_aslr` never (`msgBuf_iff`).

* What is between the buffer and the FIFO (the files, the start of the game, `write`) is one
  parameter: whether it succeeds.
* The code addresses that `handle_aslr` changes on the way are left out: it does not print them.
-/

namespace UgTrain

open CLib

/-! ## The config -/

/-- `ADD_DYNMEM_ESSENTIALS`: the text of each call. -/
def DynMemEssentials.texts (es : DynMemEssentials) : List Str :=
  [';' :: printDec es.memSize.toNat ++ ';' :: printHex es.codeAddr ++ ';' :: printHex es.stackOffs,
    ';' :: libText es.lib]

def GrowEntry.texts (grow : GrowEntry) : List Str :=
  [';' :: growTag ++ printDec grow.sizeMin.toNat ++ ';' :: printDec grow.sizeMax.toNat ++
      ';' :: grow.type.opCh :: printDec grow.add.toNat ++ ';' :: printHex grow.codeAddr ++
      ';' :: printHex grow.stackOffs,
    ';' :: libText grow.lib]

def DynMemEntry.texts (dynmem : DynMemEntry) : List Str :=
  dynmem.toDynMemEssentials.texts ++ dynmem.consts.flatMap (·.texts) ++
    dynmem.grow.elim [] (·.texts)

/-- The calls that were made and what was returned: the code and the text that was written. -/
structure Sent where
  calls : List (BitVec 64)
  ret : Except Fault (Nat × Str)
  deriving Repr

/-- `prepare_dynmem` returns its error code, or the counter was in the buffer before each call. -/
def Sent.Sound (sent : Sent) : Prop :=
  (∃ text, sent.ret = .ok (1, text)) ∨ InRoom pipeBuf sent.calls

/-- `char obuf[PIPE_BUF] = { 0 }` -/
def emptyBuf : OutBuf := ⟨List.replicate pipeBuf nul, 0, []⟩

/-- The local variables of `prepare_dynmem`. -/
structure PrepareBuf where
  out : OutBuf
  vars : PrepareState

/-- One round of the loop over the entries. -/
def PrepareBuf.step (cfg : CfgMem) (st : PrepareBuf) (en : CfgEntry) :
    Except (List (BitVec 64)) PrepareBuf :=
  match cfg.dynmemOf en with
  | none => .ok st
  | some dynmem =>
    if st.vars.isNew dynmem then
      (st.out.printAll .unsigned dynmem.texts).map (⟨·, st.vars.add dynmem⟩)
    else .ok st

/-- The line end, and what comes behind the label `skip_memhack`. -/
def finish (written : Bool) (buf : List Char) (pos : Nat) : Except Fault (Nat × Str) := do
  let buf ← store buf pos ['\n']
  let buf ← store buf (pos + 1) [nul]
  return if written then (0, buf.take (pos + 2)) else (1, [])

/-- The number of the entries goes from the end of the text to its start. -/
def moveNum (buf : List Char) (pos numLen : Nat) : Except Fault (List Char) := do
  let buf ← memmove buf numLen 0 pos
  memmove buf 0 pos numLen

/-- The texts before the first class. -/
def gbtTexts (useGbt : Bool) : List Str := if useGbt then [';' :: gbtCmd] else []

/-- The text behind the classes. -/
def finishNum (written : Bool) (st : PrepareBuf) : Sent :=
  let numCfg : U32 := BitVec.ofNat 32 st.vars.numCfg
  let numText := printInt numCfg.toInt
  match st.out.print .unsigned numText with
  | .error calls => ⟨calls, .error .outOfBounds⟩
  | .ok out =>
    let numLen := BitVec.ofInt 32 (snprintfRet numText)
    if pipeBuf < (out.pos + numLen + 2).toNat then ⟨out.calls, .ok (1, [])⟩
    else
      let pos := Widening.unsigned.ext out.pos
      ⟨out.calls ++ [pos, pos], do
        let buf ← moveNum out.buf out.pos.toNat numLen.toNat
        if numCfg = 0 then
          let _ ← finish written buf out.pos.toNat
          return (2, [])
        finish written buf out.pos.toNat⟩

/-- `prepare_dynmem`. -/
def prepareBuf (useGbt : Bool) (discStr : Str) (written : Bool) (cfg : CfgMem) : Sent :=
  if discStr ≠ [] then
    match emptyBuf.print .unsigned discStr with
    | .error calls => ⟨calls, .error .outOfBounds⟩
    | .ok out =>
      if pipeBuf < (out.pos + 2).toNat then ⟨out.calls, .ok (1, [])⟩
      else ⟨out.calls, finish written out.buf out.pos.toNat⟩
  else
    let loop := do
      let out ← emptyBuf.printAll .unsigned (gbtTexts useGbt)
      cfg.entries.foldlM (PrepareBuf.step cfg) ⟨out, [], 0, 0, 0, none⟩
    match loop with
    | .error calls => ⟨calls, .error .outOfBounds⟩
    | .ok st => finishNum written st

/-! ## The code offsets -/

/-- `PRI_PTR ";"` -/
def offsTexts (offs : List Ptr) : List Str := offs.map fun o => printHex o ++ [';']

structure AslrBuf where
  out : OutBuf
  oldDynmem : Option Nat

/-- One round of the loop over the entries. -/
def AslrBuf.step (l : LoadAddrs) (cfg : CfgMem) (st : AslrBuf) (en : CfgEntry) :
    Except (List (BitVec 64)) AslrBuf :=
  match en.dynmem with
  | none => .ok st
  | some d =>
    if some d = st.oldDynmem then .ok st
    else (st.out.printAll .signed (offsTexts (cfg.dynmems[d]?.elim [] (·.offsets l)))).map
      (⟨·, some d⟩)

/-- `handle_aslr` up to its `write`: with pure static memory, for a discovery (the answer, if one is
due) or for libmemhack. -/
def handleAslrBuf (pureStatmem : Bool) (disc : Option (Option Str)) (l : LoadAddrs) (cfg : CfgMem) :
    Except (List (BitVec 64)) OutBuf :=
  if pureStatmem then .ok emptyBuf
  else
    match disc with
    | some answer => emptyBuf.printAll .signed answer.toList
    | none => (cfg.entries.foldlM (AslrBuf.step l cfg) ⟨emptyBuf, none⟩).map (·.out)

/-- The calls of a run. -/
def callsOf : Except (List (BitVec 64)) OutBuf → List (BitVec 64)
  | .ok out => out.calls
  | .error calls => calls

/-! ## The lengths of the texts -/

/-- The classes that `prepare_dynmem` takes. -/
def takenFrom (cfg : CfgMem) (vars : PrepareState) : List CfgEntry → List DynMemEntry
  | [] => []
  | en :: es =>
    match cfg.dynmemOf en with
    | none => takenFrom cfg vars es
    | some dynmem =>
      if vars.isNew dynmem then dynmem :: takenFrom cfg (vars.add dynmem) es
      else takenFrom cfg vars es

def CfgMem.taken (cfg : CfgMem) : List DynMemEntry := takenFrom cfg ⟨[], 0, 0, 0, none⟩ cfg.entries

/-- The number of the entries, as text. -/
def CfgMem.numText (cfg : CfgMem) : Str :=
  printInt (BitVec.ofNat 32 (cfg.taken.map fun dynmem => 1 + dynmem.consts.length).sum).toInt

/-- The texts in the order in which they are printed. -/
def CfgMem.texts (useGbt : Bool) (cfg : CfgMem) : List Str :=
  gbtTexts useGbt ++ cfg.taken.flatMap (·.texts) ++ [cfg.numText]

section Loops

variable {cfg : CfgMem}

theorem printAll_append (w : Widening) (b : OutBuf) (ss ss' : List Str) :
    b.printAll w (ss ++ ss') = b.printAll w ss >>= fun b => b.printAll w ss' :=
  List.foldlM_append

theorem foldlM_prepareBuf (es : List CfgEntry) (st : PrepareBuf) :
    es.foldlM (PrepareBuf.step cfg) st
      = (st.out.printAll .unsigned ((takenFrom cfg st.vars es).flatMap (·.texts))).map
          (⟨·, es.foldl (PrepareState.step cfg) st.vars⟩) := by
  induction es generalizing st with
  | nil => rfl
  | cons en es ih =>
    rw [List.foldlM_cons, List.foldl_cons, takenFrom]
    unfold PrepareBuf.step PrepareState.step
    cases cfg.dynmemOf en with
    | none => exact ih st
    | some dynmem =>
      dsimp only
      split
      · rw [List.flatMap_cons, printAll_append]
        cases st.out.printAll .unsigned dynmem.texts with
        | error calls => rfl
        | ok out => exact ih _
      · exact ih st

theorem foldl_numCfg (es : List CfgEntry) (vars : PrepareState) :
    (es.foldl (PrepareState.step cfg) vars).numCfg
      = vars.numCfg + ((takenFrom cfg vars es).map fun dynmem => 1 + dynmem.consts.length).sum := by
  induction es generalizing vars with
  | nil => rfl
  | cons en es ih =>
    rw [List.foldl_cons, ih, takenFrom]
    unfold PrepareState.step
    cases cfg.dynmemOf en with
    | none => rfl
    | some dynmem =>
      dsimp only
      split
      · have hadd : (vars.add dynmem).numCfg = vars.numCfg + 1 + dynmem.consts.length := by
          unfold PrepareState.add
          dsimp only
          split <;> rfl
        rw [List.map_cons, List.sum_cons, hadd]
        omega
      · rfl

theorem offsTexts_append (offs offs' : List Ptr) :
    offsTexts (offs ++ offs') = offsTexts offs ++ offsTexts offs' :=
  List.map_append

theorem foldlM_aslrBuf (l : LoadAddrs) (es : List CfgEntry) (st : AslrBuf) :
    (es.foldlM (AslrBuf.step l cfg) st).map (·.out)
      = st.out.printAll .signed
          (offsTexts (((classRefs st.oldDynmem es).filterMap (cfg.dynmems[·]?)).flatMap
            (·.offsets l))) := by
  induction es generalizing st with
  | nil => rfl
  | cons en es ih =>
    rw [List.foldlM_cons, classRefs, AslrBuf.step.eq_def]
    cases en.dynmem with
    | none => exact ih st
    | some d =>
      dsimp only
      split
      · exact ih st
      · have hhead : ((d :: classRefs (some d) es).filterMap (cfg.dynmems[·]?)).flatMap
            (·.offsets l) = (cfg.dynmems[d]?.elim [] (·.offsets l)) ++
              ((classRefs (some d) es).filterMap (cfg.dynmems[·]?)).flatMap (·.offsets l) := by
          rw [List.filterMap_cons]
          cases cfg.dynmems[d]? <;> rfl
        rw [hhead, offsTexts_append, printAll_append]
        cases st.out.printAll .signed (offsTexts (cfg.dynmems[d]?.elim [] (·.offsets l))) with
        | error calls => rfl
        | ok out => exact ih _

end Loops

/-! ## The counters -/

section Counters

variable {cfg : CfgMem}

theorem emptyBuf_at : emptyBuf.At pipeBuf 0 :=
  ⟨List.length_replicate, rfl, by decide, by decide⟩

theorem pipeBuf_lt : pipeBuf < 2 ^ 31 := by decide

theorem printInt_length (n : U32) : 0 < (printInt n.toInt).length ∧ (printInt n.toInt).length ≤ 11 := by
  have hdigits : ∀ k < 10 ^ 10, 0 < (printDec k).length ∧ (printDec k).length ≤ 10 := fun k hk =>
    ⟨Nat.length_toDigits_pos, (Nat.length_toDigits_le_iff (by decide) (by decide)).mpr hk⟩
  have hlt : n.toInt.natAbs < 10 ^ 10 := by
    have := n.isLt
    rw [BitVec.toInt_eq_toNat_cond]
    split <;> omega
  obtain ⟨hpos, hle⟩ := hdigits _ hlt
  unfold printInt
  split
  · rw [List.length_cons]
    omega
  · omega

/-- Behind the classes the counter is still in the buffer, or the number goes behind its end. -/
theorem finishNum_sound_iff {written : Bool} {st : PrepareBuf} {n : Int}
    (hat : st.out.At pipeBuf n) (hcalls : InRoom pipeBuf st.out.calls) :
    (finishNum written st).Sound ↔ 0 ≤ n ∧ n ≤ pipeBuf := by
  have hlen := printInt_length (BitVec.ofNat 32 st.vars.numCfg)
  unfold finishNum
  set numText := printInt (BitVec.ofNat 32 st.vars.numCfg).toInt with hnum
  have hret : snprintfRet numText = numText.length := if_pos (by omega)
  dsimp only
  by_cases hn : 0 ≤ n ∧ n ≤ pipeBuf
  · obtain ⟨out, hprint, hat', hroom⟩ :=
      print_ok (w := .unsigned) (s := numText) pipeBuf_lt hat hcalls hn
    rw [hprint]
    refine iff_of_true ?_ hn
    dsimp only
    split
    · exact .inl ⟨[], rfl⟩
    · -- The check has passed, so that the number is in the buffer as well.
      rename_i hcheck
      have hpos : (Widening.unsigned.ext out.pos).toNat ≤ pipeBuf := by
        refine (hat'.ext_le_iff pipeBuf_lt).mpr ⟨by omega, ?_⟩
        rw [hat'.pos, hret, ← BitVec.ofInt_add, BitVec.toNat_add, BitVec.toNat_ofInt] at hcheck
        simp only [pipeBuf] at hcheck hn ⊢
        simp at hcheck
        omega
      refine .inr fun pos hmem => ?_
      rcases List.mem_append.mp hmem with hmem | hmem
      · exact hroom pos hmem
      · obtain rfl : pos = Widening.unsigned.ext out.pos := by simpa using hmem
        exact ⟨hpos, room_toNat pipeBuf_lt hpos⟩
  · obtain ⟨hprint, hlt⟩ := print_error (w := .unsigned) (s := numText) pipeBuf_lt hat hn
    rw [hprint]
    refine iff_of_false ?_ hn
    rintro (⟨_, hret⟩ | hroom)
    · cases hret
    · exact absurd (hroom _ List.mem_concat_self).1 (Nat.not_le.mpr hlt)

theorem inRoom_emptyBuf : InRoom pipeBuf emptyBuf.calls := nofun

/-- One text always fits. -/
theorem fits_toList (s : Option Str) : Fits pipeBuf 0 s.toList := by
  cases s with
  | none => trivial
  | some s => exact ⟨⟨le_rfl, Int.natCast_nonneg _⟩, trivial⟩

theorem prepareBuf_loop (useGbt : Bool) (cfg : CfgMem) :
    (do let out ← emptyBuf.printAll .unsigned (gbtTexts useGbt)
        cfg.entries.foldlM (PrepareBuf.step cfg) ⟨out, [], 0, 0, 0, none⟩)
      = (emptyBuf.printAll .unsigned (gbtTexts useGbt ++ cfg.taken.flatMap (·.texts))).map
          (⟨·, cfg.entries.foldl (PrepareState.step cfg) ⟨[], 0, 0, 0, none⟩⟩) := by
  rw [printAll_append]
  cases emptyBuf.printAll .unsigned (gbtTexts useGbt) with
  | error calls => rfl
  | ok out => exact foldlM_prepareBuf cfg.entries ⟨out, [], 0, 0, 0, none⟩

theorem prepareBuf_sound_iff (useGbt : Bool) (discStr : Str) (written : Bool) (cfg : CfgMem) :
    (prepareBuf useGbt discStr written cfg).Sound ↔
      discStr ≠ [] ∨ Fits pipeBuf 0 (cfg.texts useGbt) := by
  unfold prepareBuf
  by_cases hdisc : discStr ≠ []
  · rw [if_pos hdisc]
    refine iff_of_true ?_ (.inl hdisc)
    obtain ⟨out, hprint, -, hroom⟩ := print_ok (w := .unsigned) (s := discStr) pipeBuf_lt emptyBuf_at
      inRoom_emptyBuf ⟨le_rfl, Int.natCast_nonneg _⟩
    rw [hprint]
    dsimp only
    split
    · exact .inl ⟨[], rfl⟩
    · exact .inr hroom
  · rw [if_neg hdisc, prepareBuf_loop, or_iff_right hdisc, CfgMem.texts, fits_append]
    by_cases hfits : Fits pipeBuf 0 (gbtTexts useGbt ++ cfg.taken.flatMap (·.texts))
    · obtain ⟨out, hprint, hat, hroom⟩ := printAll_ok (w := .unsigned) pipeBuf_lt emptyBuf_at
        inRoom_emptyBuf hfits
      rw [hprint]
      refine (finishNum_sound_iff hat hroom).trans ?_
      simp only [hfits, Fits, true_and, and_true]
    · obtain ⟨calls, hprint, hroom⟩ := printAll_error (w := .unsigned) pipeBuf_lt emptyBuf_at
        inRoom_emptyBuf hfits
      rw [hprint]
      refine iff_of_false ?_ fun h => hfits h.1
      rintro (⟨_, hret⟩ | h)
      · cases hret
      · exact hroom h

theorem handleAslrBuf_inRoom_iff (pureStatmem : Bool) (disc : Option (Option Str)) (l : LoadAddrs)
    (cfg : CfgMem) : InRoom pipeBuf (callsOf (handleAslrBuf pureStatmem disc l cfg)) ↔
      pureStatmem = true ∨ disc ≠ none ∨ Fits pipeBuf 0 (offsTexts (cfg.offsets l)) := by
  have hprints : ∀ ss : List Str, InRoom pipeBuf (callsOf (emptyBuf.printAll .signed ss)) ↔
      Fits pipeBuf 0 ss := by
    intro ss
    by_cases hfits : Fits pipeBuf 0 ss
    · obtain ⟨out, hprint, -, hroom⟩ := printAll_ok (w := .signed) pipeBuf_lt emptyBuf_at
        inRoom_emptyBuf hfits
      rw [hprint]
      exact iff_of_true hroom hfits
    · obtain ⟨calls, hprint, hroom⟩ := printAll_error (w := .signed) pipeBuf_lt emptyBuf_at
        inRoom_emptyBuf hfits
      rw [hprint]
      exact iff_of_false hroom hfits
  unfold handleAslrBuf
  cases pureStatmem with
  | true => exact iff_of_true inRoom_emptyBuf (.inl rfl)
  | false =>
    cases disc with
    | some answer => exact iff_of_true ((hprints _).mpr (fits_toList answer)) (.inr (.inl nofun))
    | none =>
      rw [if_neg Bool.noConfusion]
      dsimp only
      rw [foldlM_aslrBuf]
      refine (hprints _).trans ?_
      simp [CfgMem.offsets, CfgMem.classes]

/-- **The counters of both messages** stay in their buffers exactly for the configs whose texts begin
in them. -/
theorem msgBuf_iff (useGbt : Bool) (discStr : Str) (written pureStatmem : Bool)
    (disc : Option (Option Str)) (l : LoadAddrs) (cfg cfg' : CfgMem) :
    ((prepareBuf useGbt discStr written cfg).Sound ↔
      discStr ≠ [] ∨ Fits pipeBuf 0 (cfg.texts useGbt)) ∧
    (InRoom pipeBuf (callsOf (handleAslrBuf pureStatmem disc l cfg')) ↔
      pureStatmem = true ∨ disc ≠ none ∨ Fits pipeBuf 0 (offsTexts (cfg'.offsets l))) :=
  ⟨prepareBuf_sound_iff useGbt discStr written cfg, handleAslrBuf_inRoom_iff pureStatmem disc l cfg'⟩

/-- A library whose name is longer than the buffer. -/
def DynMemEntry.longLib : DynMemEntry :=
  { (default : DynMemEntry) with
    memSize := 16
    codeAddr := 0x700
    stackOffs := 8
    lib := some ⟨1, List.replicate 5000 'a'⟩ }

theorem prepareBuf_longLib :
    ¬ ([] ≠ ([] : Str) ∨ Fits pipeBuf 0 ((CfgMem.single .longLib).texts false)) := by
  intro hfits
  have htexts : (CfgMem.single .longLib).texts false
      = DynMemEntry.longLib.toDynMemEssentials.texts ++ [(CfgMem.single .longLib).numText] := rfl
  have hlib : snprintfRet (';' :: libText DynMemEntry.longLib.lib) = 5001 := by
    rw [show libText DynMemEntry.longLib.lib = List.replicate 5000 'a' from rfl, snprintfRet,
      List.length_cons, List.length_replicate]
    rfl
  rw [or_iff_right (not_not.mpr rfl), htexts] at hfits
  obtain ⟨-, -, ⟨-, hle⟩, -⟩ := hfits
  -- The number is printed behind the name.
  rw [hlib] at hle
  have hret := snprintfRet_bounds (DynMemEntry.longLib.toDynMemEssentials.texts.headD [])
  simp only [DynMemEssentials.texts, List.headD_cons, pipeBuf] at hret hle
  omega

/-- A class with many constructors in the executable. -/
def DynMemEntry.manyConsts : DynMemEntry :=
  { (default : DynMemEntry) with
    memSize := 16
    codeAddr := 0x700
    stackOffs := 8
    lib := some ⟨1, []⟩
    consts := List.replicate 290 ⟨8, 1, 1, 8, some ⟨2, []⟩⟩ }

/-- The usual offset of an executable. -/
def LoadAddrs.exe : LoadAddrs := ⟨0x555555554000, []⟩

/-- A name that is longer than the buffer; and a config that fits, with code offsets that do not. -/
theorem msgBuf_not :
    (¬ ∀ (useGbt written : Bool) (cfg : CfgMem), (prepareBuf useGbt [] written cfg).Sound) ∧
    ¬ ∀ (l : LoadAddrs) (cfg : CfgMem), (prepareDynmem false cfg).isSome →
      InRoom pipeBuf (callsOf (handleAslrBuf false none l cfg)) := by
  refine ⟨fun h => ?_, fun h => ?_⟩
  · exact prepareBuf_longLib ((prepareBuf_sound_iff _ _ _ _).mp (h false true (.single .longLib)))
  · have hfits := (handleAslrBuf_inRoom_iff _ _ _ _).mp
      (h .exe (.single .manyConsts) (by decide +kernel))
    rw [or_iff_right Bool.noConfusion, or_iff_right (not_not.mpr rfl)] at hfits
    revert hfits
    decide +kernel

end Counters

/-! ## The text in the buffer -/

section Text

variable {cfg : CfgMem}

theorem takenFrom_obuf (es : List CfgEntry) (vars : PrepareState) (obuf : Str) :
    takenFrom cfg { vars with obuf := obuf } es = takenFrom cfg vars es := by
  have hadd : ∀ (vars : PrepareState) (dynmem : DynMemEntry) (obuf : Str),
      PrepareState.add { vars with obuf := obuf } dynmem
        = { vars.add dynmem with obuf := obuf ++ dynmem.text } := by
    intro vars dynmem obuf
    unfold PrepareState.add
    dsimp only
    split <;> rfl
  induction es generalizing vars obuf with
  | nil => rfl
  | cons en es ih =>
    rw [takenFrom, takenFrom]
    cases cfg.dynmemOf en with
    | none => exact ih vars obuf
    | some dynmem =>
      have hnew : PrepareState.isNew { vars with obuf := obuf } dynmem = vars.isNew dynmem := rfl
      dsimp only
      rw [hnew, hadd]
      split
      · exact congrArg _ (ih _ _)
      · exact ih _ _

theorem taken_eq (obuf : Str) : takenFrom cfg ⟨obuf, 0, 0, 0, none⟩ cfg.entries = cfg.taken :=
  takenFrom_obuf cfg.entries ⟨[], 0, 0, 0, none⟩ obuf

theorem foldl_obuf (es : List CfgEntry) (vars : PrepareState) :
    (es.foldl (PrepareState.step cfg) vars).obuf
      = vars.obuf ++ ((takenFrom cfg vars es).map (·.text)).flatten := by
  induction es generalizing vars with
  | nil => simp [takenFrom]
  | cons en es ih =>
    rw [List.foldl_cons, ih, takenFrom]
    unfold PrepareState.step
    cases cfg.dynmemOf en with
    | none => rfl
    | some dynmem =>
      dsimp only
      split
      · have hadd : (vars.add dynmem).obuf = vars.obuf ++ dynmem.text := by
          unfold PrepareState.add
          dsimp only
          split <;> rfl
        rw [hadd, List.map_cons, List.flatten_cons, List.append_assoc]
      · rfl

theorem texts_flatten (dynmem : DynMemEntry) : dynmem.texts.flatten = dynmem.text := by
  have hes : ∀ es : DynMemEssentials, es.texts.flatten = es.text := fun es => by
    simp [DynMemEssentials.texts, DynMemEssentials.text]
  have hconsts : (dynmem.consts.flatMap (·.texts)).flatten = (dynmem.consts.map (·.text)).flatten := by
    induction dynmem.consts with
    | nil => rfl
    | cons es l ih =>
      rw [List.flatMap_cons, List.flatten_append, ih, hes, List.map_cons, List.flatten_cons]
  rw [DynMemEntry.texts, DynMemEntry.text, List.flatten_append, List.flatten_append, hes, hconsts]
  congr 1
  cases dynmem.grow with
  | none => rfl
  | some grow => simp [GrowEntry.texts, GrowEntry.text]

theorem moveNum_eq {t n z : Str} (hz : n.length ≤ z.length) :
    moveNum (t ++ n ++ z) (t ++ n).length n.length = .ok (n ++ t ++ (n ++ z.drop n.length)) := by
  have hlen : ((t ++ n ++ z).take n.length).length = n.length := by
    simp only [List.length_take, List.length_append]
    omega
  have hfirst : memmove (t ++ n ++ z) n.length 0 (t ++ n).length
      = .ok ([] ++ ((t ++ n ++ z).take n.length ++ t) ++ (n ++ z.drop n.length)) := by
    have hdrop : (t ++ n ++ z).drop (n.length + (t ++ n).length) = z.drop n.length := by
      rw [List.drop_append, List.drop_of_length_le (by omega), List.nil_append]
      congr 1
      omega
    rw [memmove, if_pos (by simp only [List.length_append]; omega), List.drop_zero,
      List.take_left' rfl, store, if_pos (by simp only [List.length_append]; omega), hdrop]
    simp only [List.nil_append, List.append_assoc]
  have hsecond := memmove_append (a := []) (b := (t ++ n ++ z).take n.length ++ t)
    (c := n ++ z.drop n.length) (k := n.length) (by rw [List.length_append]; omega)
  rw [List.length_nil, Nat.zero_add, List.length_append, hlen, Nat.add_comm, ← List.length_append]
    at hsecond
  rw [List.take_left' rfl, List.append_assoc _ t, List.drop_left' hlen] at hsecond
  unfold moveNum
  rw [hfirst]
  refine hsecond.trans ?_
  rw [List.nil_append, List.append_assoc]

theorem finish_eq {p r : Str} (h : 2 ≤ r.length) :
    finish true (p ++ r) p.length = .ok (0, p ++ ['\n', nul]) := by
  obtain ⟨x, y, r, rfl⟩ : ∃ x y r', r = x :: y :: r' := by
    rcases r with _ | ⟨x, _ | ⟨y, r⟩⟩
    · cases h
    · simp at h
    · exact ⟨x, y, r, rfl⟩
  have hfirst : store (p ++ x :: y :: r) p.length ['\n'] = .ok (p ++ ['\n'] ++ (y :: r)) := by
    have := store_append (a := p) (b := [x]) (c := y :: r) (s := ['\n']) rfl
    rwa [List.append_assoc] at this
  have hsecond : store (p ++ ['\n'] ++ (y :: r)) (p.length + 1) [nul]
      = .ok (p ++ ['\n'] ++ [nul] ++ r) := by
    have := store_append (a := p ++ ['\n']) (b := [y]) (c := r) (s := [nul]) rfl
    rwa [List.append_assoc, List.length_append] at this
  have htake : (p ++ ['\n'] ++ [nul] ++ r).take (p.length + 2) = p ++ ['\n', nul] := by
    rw [List.append_assoc p, List.take_left']
    · rfl
    · rw [List.length_append]
      rfl
  unfold finish
  rw [hfirst]
  change (store _ _ _ >>= _) = _
  rw [hsecond]
  exact congrArg (fun text => Except.ok (0, text)) htake

theorem length_consts_lt (dynmem : DynMemEntry) :
    1 + dynmem.consts.length ≤ dynmem.text.length := by
  have hconsts : dynmem.consts.length ≤ (dynmem.consts.map (·.text)).flatten.length := by
    induction dynmem.consts with
    | nil => exact Nat.zero_le _
    | cons es l ih =>
      rw [List.map_cons, List.flatten_cons, List.length_append, List.length_cons,
        DynMemEssentials.text]
      simp only [List.cons_append, List.length_cons]
      omega
  rw [DynMemEntry.text, DynMemEssentials.text]
  simp only [List.length_append, List.cons_append, List.length_cons]
  omega

theorem sum_consts_le (classes : List DynMemEntry) :
    (classes.map fun dynmem => 1 + dynmem.consts.length).sum
      ≤ (classes.map (·.text)).flatten.length := by
  induction classes with
  | nil => exact Nat.zero_le _
  | cons dynmem classes ih =>
    rw [List.map_cons, List.sum_cons, List.map_cons, List.flatten_cons, List.length_append]
    exact Nat.add_le_add (length_consts_lt dynmem) ih

theorem printInt_ofNat {k : Nat} (h : k < 2 ^ 31) :
    printInt (BitVec.ofNat 32 k).toInt = printDec k := by
  have hint : (BitVec.ofNat 32 k).toInt = k := by
    rw [BitVec.toInt_eq_toNat_cond, BitVec.toNat_ofNat]
    omega
  rw [hint, printInt, if_neg (Int.not_lt.mpr (Int.natCast_nonneg k)), Int.natAbs_natCast]

theorem finishNum_text {vars : PrepareState} {calls : List (BitVec 64)} {body : Str} {numCfg : Nat}
    (hcount : vars.numCfg = numCfg) (hne : numCfg ≠ 0)
    (hroom : ¬ body.length + (printDec numCfg).length + (printDec numCfg).length + 2 > pipeBuf)
    (hsum : numCfg ≤ body.length) :
    (finishNum true ⟨⟨padded pipeBuf body, BitVec.ofNat 32 body.length, calls⟩, vars⟩).ret
      = .ok (0, printDec numCfg ++ body ++ ['\n', nul]) := by
  have hpipe : pipeBuf = 4096 := rfl
  have hnum : BitVec.ofNat 32 numCfg ≠ 0 := by
    intro h0
    have hmod : numCfg % 2 ^ 32 = 0 := congrArg BitVec.toNat h0
    omega
  set numText := printDec numCfg with htext
  have hret : BitVec.ofInt 32 (snprintfRet numText) = BitVec.ofNat 32 numText.length := by
    rw [snprintfRet, if_pos (by omega)]
    rfl
  have hlen : (BitVec.ofNat 32 numText.length).toNat = numText.length := by
    rw [BitVec.toNat_ofNat]
    omega
  have hpos : (BitVec.ofNat 32 (body ++ numText).length).toNat = (body ++ numText).length := by
    rw [BitVec.toNat_ofNat, List.length_append]
    omega
  have hcheck : ¬ pipeBuf < (BitVec.ofNat 32 (body ++ numText).length
      + BitVec.ofNat 32 numText.length + 2).toNat := by
    rw [BitVec.toNat_add, BitVec.toNat_add, hpos, hlen, List.length_append]
    change ¬ pipeBuf < ((_ + _) % 2 ^ 32 + 2) % 2 ^ 32
    omega
  set z : Str := List.replicate (pipeBuf - (body ++ numText).length) nul with hz
  have hzlen : z.length = pipeBuf - (body ++ numText).length := List.length_replicate
  rw [List.length_append] at hzlen
  have hmove := moveNum_eq (t := body) (n := numText) (z := z) (by omega)
  have hfinish := finish_eq (p := numText ++ body) (r := numText ++ z.drop numText.length)
    (by rw [List.length_append, List.length_drop]; omega)
  rw [List.length_append, Nat.add_comm, ← List.length_append] at hfinish
  unfold finishNum
  dsimp only
  rw [hcount, printInt_ofNat (by omega), ← htext, print_padded pipeBuf_lt (by omega)]
  dsimp only
  rw [hret, if_neg hcheck, hpos, hlen]
  change (moveNum (body ++ numText ++ z) _ _ >>= _) = _
  rw [hmove]
  exact (if_neg hnum).trans hfinish

/-- **What `prepareDynmem` describes** is what is written from the buffer. -/
theorem prepareBuf_text {useGbt : Bool} {text : Str} (h : prepareDynmem useGbt cfg = some text) :
    (prepareBuf useGbt [] true cfg).ret = .ok (0, text) := by
  set gbt : Str := if useGbt then ";gbt".toList else [] with hgbt
  set body := gbt ++ (cfg.taken.map (·.text)).flatten with hbody
  set numCfg := (cfg.taken.map fun dynmem => 1 + dynmem.consts.length).sum with hnum
  have hobuf : (cfg.entries.foldl (PrepareState.step cfg) ⟨gbt, 0, 0, 0, none⟩).obuf = body := by
    rw [foldl_obuf, taken_eq]
  have hcount : ∀ obuf, (cfg.entries.foldl (PrepareState.step cfg) ⟨obuf, 0, 0, 0, none⟩).numCfg
      = numCfg := by
    intro obuf
    rw [foldl_numCfg, Nat.zero_add, taken_eq]
  unfold prepareDynmem at h
  dsimp only at h
  rw [← hgbt, hobuf, hcount] at h
  split at h
  · cases h
  rename_i hroom
  split at h
  · cases h
  rename_i hne
  obtain rfl := Option.some.inj h
  have hsum : numCfg ≤ body.length := by
    rw [hbody, List.length_append]
    exact (sum_consts_le cfg.taken).trans (Nat.le_add_left _ _)
  have hpipe : pipeBuf = 4096 := rfl
  have hflat : (gbtTexts useGbt ++ cfg.taken.flatMap (·.texts)).flatten = body := by
    have htaken : (cfg.taken.flatMap (·.texts)).flatten = (cfg.taken.map (·.text)).flatten := by
      induction cfg.taken with
      | nil => rfl
      | cons dynmem l ih =>
        rw [List.flatMap_cons, List.flatten_append, ih, texts_flatten, List.map_cons,
          List.flatten_cons]
    rw [List.flatten_append, htaken, hbody, hgbt]
    cases useGbt <;> rfl
  obtain ⟨calls, hprint⟩ := printAll_padded .unsigned
    (gbtTexts useGbt ++ cfg.taken.flatMap (·.texts)) [] pipeBuf_lt (t := [])
    (by rw [hflat, List.length_nil]; omega)
  rw [hflat, List.nil_append] at hprint
  have hbuf : emptyBuf.printAll .unsigned (gbtTexts useGbt ++ cfg.taken.flatMap (·.texts))
      = .ok ⟨padded pipeBuf body, BitVec.ofNat 32 body.length, calls⟩ := hprint
  unfold prepareBuf
  rw [if_neg (not_not.mpr rfl), prepareBuf_loop, hbuf]
  exact finishNum_text (hcount []) hne hroom hsum

end Text

end UgTrain
