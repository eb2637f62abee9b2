import UgTrain.Discovery
import UgTrain.LateAgree
import UgTrain.MsgBuf
import UgTrain.ReverseParse

/-!
# Backtraces (`libmemdisc.c`, `process_disc1234_malloc`)

In the stages 3 and 4 libmemdisc writes the code addresses on the stack behind an allocation, in
stage 4 with their stack offsets. ugtrain reads them back with one `sscanf` for both formats and
looks for the separators in between. `backtrace_roundTrip`: it gets what was recorded.

* The stack is the list of its words from `ffp` on, empty if `ffp` is null.
* `trace` is what `backtrace()` of the GNU C library gives.
* `ptr` is the pointer that `get_ptr_to_heap` writes into a line of its own, if it does.
-/

namespace UgTrain

open CLib

/-! ## libmemdisc -/

/-- `MAX_BT`, the same on both sides. -/
def maxBt : Nat := 11

def maxGnuBt : Nat := 4

/-- The static variables of libmemdisc once it is active. -/
structure BtMemDisc extends MemDisc where
  btSaddr : Ptr
  btEaddr : Ptr
  deriving DecidableEq, Repr

/-- An element of a backtrace: the code address, and the stack offset if it is written. -/
structure BtEntry where
  codeAddr : Ptr
  stackOffs : Option Ptr
  deriving DecidableEq, Repr

def BtEntry.text (en : BtEntry) : Str :=
  ';' :: 'c' :: printHex en.codeAddr ++ en.stackOffs.elim [] fun offs => ';' :: 'o' :: printHex offs

def BtMemDisc.inRange (m : BtMemDisc) (codeAddr : Ptr) : Bool :=
  m.btSaddr ≤ codeAddr && codeAddr ≤ m.btEaddr

/-- What `find_code_addresses` writes for an address of the code. -/
def BtMemDisc.found (m : BtMemDisc) (codeAddr offs : Ptr) : List BtEntry :=
  if m.stage = 4 ∧ (m.codeAddr = 0 ∨ codeAddr = m.codeAddr) then [⟨codeAddr, some offs⟩]
  else if m.stage = 3 then [⟨codeAddr, none⟩]
  else []

/-- `find_code_addresses`: `left` more addresses are looked at, `offs` is the stack offset. -/
def findCodeAddresses (m : BtMemDisc) : Nat → Ptr → List Ptr → List BtEntry
  | 0, _, _ => []
  | _, _, [] => []
  | left + 1, offs, codeAddr :: stack =>
    if m.inRange codeAddr then m.found codeAddr offs ++ findCodeAddresses m left (offs + 8) stack
    else findCodeAddresses m (left + 1) (offs + 8) stack

/-- `run_gnu_backtrace`; the first address is the one of libmemdisc itself. -/
def runGnuBacktrace (m : BtMemDisc) (trace : List Ptr) : List BtEntry :=
  (((trace.take maxGnuBt).drop 1).filter m.inRange).map (⟨·, none⟩)

/-- The backtrace that is recorded. -/
def BtMemDisc.backtrace (m : BtMemDisc) (stack trace : List Ptr) : List BtEntry :=
  if m.useGbt then runGnuBacktrace m trace else findCodeAddresses m maxBt 0 stack

/-- An allocation of this size is not recorded. -/
def BtMemDisc.skips (m : BtMemDisc) (size : SizeT) : Bool :=
  size = 0 || (0 < m.mallocSize && size ≠ m.mallocSize && size ≠ m.ptrCfg.elim 0 (·.memSize))

/-- The texts of the calls of `snprintf`. -/
def recordTexts (memAddr : Ptr) (size : SizeT) (bt : List BtEntry) (ptr : Option Ptr) : List Str :=
  ('m' :: printHex memAddr ++ ';' :: 's' :: printInt size.toInt) :: bt.map (·.text) ++ [['\n']] ++
    ptr.toList.map fun ptrAddr => 'p' :: printHex ptrAddr ++ ['\n']

/-- `postprocess_malloc` in the stages 3 and 4: what is written to the output, if anything is. -/
def postprocessMallocBt (m : BtMemDisc) (stack trace : List Ptr) (ptr : Option Ptr) (size : SizeT)
    (memAddr : Ptr) : Except (List (BitVec 64)) (Option Str) := do
  if m.skips size then return none
  else if m.backtrace stack trace = [] then return none
  else
    let out ← emptyBuf.printAll .signed (recordTexts memAddr size (m.backtrace stack trace) ptr)
    -- only send out terminated messages
    return if 1 ≤ out.pos.toInt ∧ out.buf[out.pos.toNat - 1]? = some '\n' then some (cstr out.buf)
      else none

/-! ## ugtrain -/

/-- `sscanf(.., "c0x%lx;o0x%lx", ..)`: the code address, and the stack offset if it is scanned. -/
def scanBtEntry (s : Str) : Option (Ptr × Option Ptr) := do
  let s ← scanLit ['c'] s
  let (codeAddr, s) ← scanPtr s
  return (codeAddr, (scanLit [';', 'o'] s).bind fun s => (scanPtr s).map (·.1))

/-- The text behind the next `;`. -/
def behindSep (s : Str) : Option Str := (strchr s ';').map fun sepPos => s.drop (sepPos + 1)

/-- The loop over `codes` and `soffs`; `left` elements are left in them. -/
def scanBacktrace : Nat → Str → List (Ptr × Ptr)
  | 0, _ => []
  | left + 1, s =>
    match scanBtEntry s with
    | none => []
    | some (codeAddr, stackOffs) =>
      let next := (behindSep s).bind fun s => if stackOffs.isSome then behindSep s else some s
      (codeAddr, stackOffs.getD 0) :: next.elim [] (scanBacktrace left)

/-- The elements of `codes` and `soffs` that `process_disc1234_malloc` fills in, if it comes to them,
and `matches_left`. -/
def processDisc1234Malloc (stage : Char) (inAddr : Ptr) (matchesLeft : U32) (pp : PostParse)
    (memAddr : Ptr) (memSize : SizeT) : Option (List (Ptr × Ptr)) × U32 :=
  if memAddr ≤ inAddr ∧ inAddr < memAddr + memSize then
    if matchesLeft = 0 then (none, matchesLeft)
    else if stage = '3' ∨ stage = '4' then
      ((behindSep (pp.ibuf.drop pp.ppos)).map (scanBacktrace maxBt), matchesLeft - 1)
    else (none, matchesLeft - 1)
  else (none, matchesLeft)

/-! ## Scanning -/

/-- `%lu` reads what `%zd` wrote, negative numbers too. -/
theorem scanULong_printInt (v : BitVec 64) {t : Str} (ht : NoDigit 10 t)
    (hx : ∀ c ∈ t.head?, c ≠ 'x' ∧ c ≠ 'X') :
    scanULong 10 (printInt v.toInt ++ t) = some (v, t) := by
  have hlt := v.isLt
  have hint := v.toInt_eq_toNat_cond
  unfold printInt
  split
  · rename_i hneg
    have hmsb : 2 ^ 64 ≤ 2 * v.toNat := by
      split at hint <;> omega
    have habs : v.toInt.natAbs = 2 ^ 64 - v.toNat := by
      rw [hint, if_neg (by omega)]
      omega
    have hbody := scanBody_toDigits (b := 10) (by decide) (by decide) v.toInt.natAbs ht hx
    have hnum : scanNum 10 ('-' :: (printDec v.toInt.natAbs ++ t)) =
        some (true, v.toInt.natAbs, t) := by
      unfold scanNum printDec
      rw [List.dropWhile_cons_of_neg (by decide)]
      simp only [scanSign, hbody, Option.map_some]
    have hv : -BitVec.ofNat 64 (2 ^ 64 - v.toNat) = v := by
      apply BitVec.eq_of_toNat_eq
      rw [BitVec.toNat_neg, BitVec.toNat_ofNat]
      omega
    rw [List.cons_append, scanULong, hnum, Option.map_some]
    simp only [toULong]
    rw [if_neg (by omega), if_pos trivial, habs, hv]
  · rename_i hpos
    have habs : v.toInt.natAbs = v.toNat := by
      split at hint <;> omega
    rw [habs, scanULong_printDec _ hlt ht hx, BitVec.ofNat_toNat, BitVec.setWidth_eq]

section Scan

variable {bt : List BtEntry} {en : BtEntry} {t y : Str}

/-- What stands behind an element: a separator or the end of the message. -/
def Behind (t : Str) : Prop := t.head? = some ';' ∨ t.head? = some nul

theorem Behind.noDigit (h : Behind t) : NoDigit 16 t ∧ ∀ c ∈ t.head?, c ≠ 'x' ∧ c ≠ 'X' := by
  unfold NoDigit
  rcases h with h | h <;> rw [h] <;> simp <;> decide

theorem scanPtr_behind (a : Ptr) (h : Behind t) : scanPtr (printHex a ++ t) = some (a, t) :=
  scanPtr_printHex a h.noDigit.1 h.noDigit.2

theorem behindSep_append {pre : Str} (hsep : ';' ∉ pre) (hn : nul ∉ pre) :
    behindSep (pre ++ t) = behindSep t := by
  unfold behindSep
  induction pre with
  | nil => rfl
  | cons c pre ih =>
    simp only [List.mem_cons, not_or] at hsep hn
    rw [List.cons_append, strchr, if_neg (Ne.symm hsep.1), if_neg (Ne.symm hn.1), Option.map_map,
      ← ih hsep.2 hn.2]
    rfl

theorem behindSep_printHex (c : Char) (a : Ptr) (hc : c ≠ ';' ∧ c ≠ nul) :
    behindSep (c :: (printHex a ++ t)) = behindSep t := by
  rw [← List.cons_append]
  refine behindSep_append ?_ ?_
  · exact mt List.mem_cons.mp (not_or.mpr ⟨hc.1.symm, not_mem_printHex (by decide) (by decide)⟩)
  · exact mt List.mem_cons.mp (not_or.mpr ⟨hc.2.symm, not_mem_printHex (by decide) (by decide)⟩)

/-- The texts of the elements that follow. -/
theorem behind_texts (bt : List BtEntry) : Behind (bt.flatMap (·.text) ++ nul :: y) := by
  cases bt with
  | nil => exact .inr rfl
  | cons en bt => exact .inl rfl

theorem behindSep_texts : behindSep (bt.flatMap (·.text) ++ nul :: y) =
    if bt = [] then none else some ((bt.flatMap (·.text) ++ nul :: y).drop 1) := by
  cases bt with
  | nil => rfl
  | cons en bt => rfl

theorem scanLit_texts (bt : List BtEntry) (y : Str) :
    scanLit [';', 'o'] (bt.flatMap (·.text) ++ nul :: y) = none := by
  cases bt with
  | nil => rfl
  | cons en bt => rfl

theorem scanBtEntry_text (en : BtEntry) (bt : List BtEntry) (y : Str) :
    scanBtEntry ((en.text ++ (bt.flatMap (·.text) ++ nul :: y)).drop 1) =
      some (en.codeAddr, en.stackOffs) := by
  obtain ⟨codeAddr, stackOffs⟩ := en
  have hbehind := behind_texts (y := y) bt
  have hlit := scanLit_texts bt y
  generalize bt.flatMap (·.text) ++ nul :: y = t at hbehind hlit ⊢
  cases stackOffs with
  | none =>
    have hptr := scanPtr_behind codeAddr hbehind
    simp [BtEntry.text, scanBtEntry, scanLit, hptr, hlit]
  | some offs =>
    have hoffs := scanPtr_behind offs hbehind
    have hptr := scanPtr_behind codeAddr (t := ';' :: 'o' :: (printHex offs ++ t)) (.inl rfl)
    simp [BtEntry.text, scanBtEntry, scanLit, hptr, hoffs]

/-- An element has one separator, or two with a stack offset. -/
theorem behindSep_entry (en : BtEntry) (t : Str) : ((behindSep ((en.text ++ t).drop 1)).bind fun s =>
    if en.stackOffs.isSome then behindSep s else some s) = behindSep t := by
  obtain ⟨codeAddr, stackOffs⟩ := en
  cases stackOffs with
  | none =>
    simp only [BtEntry.text, Option.elim_none, List.append_nil, List.cons_append,
      List.drop_succ_cons, List.drop_zero]
    rw [behindSep_printHex 'c' codeAddr (by decide)]
    cases behindSep t <;> rfl
  | some offs =>
    simp only [BtEntry.text, Option.elim_some, List.cons_append, List.append_assoc,
      List.drop_succ_cons, List.drop_zero]
    rw [behindSep_printHex 'c' codeAddr (by decide)]
    exact behindSep_printHex 'o' offs (by decide)

/-- **The loop** over the text of a backtrace without its first separator. -/
theorem scanBacktrace_texts {n : Nat} (hlen : bt.length ≤ n) (hne : bt ≠ []) :
    scanBacktrace n ((bt.flatMap (·.text) ++ nul :: y).drop 1) =
      bt.map fun en => (en.codeAddr, en.stackOffs.getD 0) := by
  induction bt generalizing n with
  | nil => exact absurd rfl hne
  | cons en bt ih =>
    obtain ⟨n, rfl⟩ : ∃ m, n = m + 1 := ⟨n - 1, by simp at hlen; omega⟩
    have hentry := scanBtEntry_text en bt y
    have hnext := behindSep_entry en (bt.flatMap (·.text) ++ nul :: y)
    rw [List.flatMap_cons, List.append_assoc, scanBacktrace, hentry]
    dsimp only
    rw [hnext, behindSep_texts]
    by_cases hbt : bt = []
    · subst hbt
      rfl
    · rw [if_neg hbt, Option.elim_some, ih (by simpa using hlen) hbt]
      rfl

end Scan

/-! ## The record -/

/-- The line of an allocation. -/
def recordLine (memAddr : Ptr) (size : SizeT) (bt : List BtEntry) : Str :=
  'm' :: printHex memAddr ++ ';' :: 's' :: printInt size.toInt ++ bt.flatMap (·.text)

section Record

variable {memAddr : Ptr} {size : SizeT} {bt : List BtEntry}

/-- The characters of the numbers. -/
theorem printHex_isLine (a : Ptr) : IsLine (printHex a) :=
  ⟨not_mem_printHex (by decide) (by decide), not_mem_printHex (by decide) (by decide)⟩

theorem isLine_append {l l' : Str} (h : IsLine l) (h' : IsLine l') : IsLine (l ++ l') := by
  simp [IsLine, h.1, h.2, h'.1, h'.2]

theorem isLine_cons {c : Char} {l : Str} (hc : c ≠ '\n' ∧ c ≠ nul) (h : IsLine l) : IsLine (c :: l) :=
  ⟨mt List.mem_cons.mp (not_or.mpr ⟨hc.1.symm, h.1⟩), mt List.mem_cons.mp (not_or.mpr ⟨hc.2.symm, h.2⟩)⟩

theorem printInt_isLine (n : Int) : IsLine (printInt n) ∧ ';' ∉ printInt n := by
  have h : ∀ k, IsLine (printDec k) ∧ ';' ∉ printDec k := fun k =>
    ⟨⟨not_mem_printDec (by decide), not_mem_printDec (by decide)⟩, not_mem_printDec (by decide)⟩
  unfold printInt
  split
  · exact ⟨isLine_cons (by decide) (h _).1, mt List.mem_cons.mp (not_or.mpr ⟨by decide, (h _).2⟩)⟩
  · exact h _

theorem BtEntry.isLine (en : BtEntry) : IsLine en.text := by
  obtain ⟨codeAddr, stackOffs⟩ := en
  refine isLine_append (isLine_cons (by decide) (isLine_cons (by decide) (printHex_isLine _))) ?_
  cases stackOffs with
  | none => exact ⟨List.not_mem_nil, List.not_mem_nil⟩
  | some offs => exact isLine_cons (by decide) (isLine_cons (by decide) (printHex_isLine _))

theorem recordLine_isLine : IsLine (recordLine memAddr size bt) := by
  refine isLine_append (isLine_append (isLine_cons (by decide) (printHex_isLine _))
    (isLine_cons (by decide) (isLine_cons (by decide) (printInt_isLine _).1))) ?_
  induction bt with
  | nil => decide
  | cons en bt ih => exact isLine_append en.isLine ih

theorem printInt_length64 (v : BitVec 64) : (printInt v.toInt).length ≤ 20 := by
  have hdigits : ∀ k < 10 ^ 19, (printDec k).length ≤ 19 := fun k hk =>
    (Nat.length_toDigits_le_iff (by decide) (by decide)).mpr hk
  have hlt : v.toInt.natAbs < 10 ^ 19 := by
    have := v.isLt
    rw [BitVec.toInt_eq_toNat_cond]
    split <;> omega
  have := hdigits _ hlt
  unfold printInt
  split
  · rw [List.length_cons]
    omega
  · omega

theorem BtEntry.text_length (en : BtEntry) : en.text.length ≤ 40 := by
  obtain ⟨codeAddr, stackOffs⟩ := en
  have h₁ := length_printHex codeAddr
  cases stackOffs with
  | none =>
    simp [BtEntry.text]
    omega
  | some offs =>
    have h₂ := length_printHex offs
    simp [BtEntry.text]
    omega

theorem recordLine_length : (recordLine memAddr size bt).length ≤ 41 + 40 * bt.length := by
  have h₁ := length_printHex memAddr
  have h₂ := printInt_length64 size
  have h₃ : (bt.flatMap (·.text)).length ≤ 40 * bt.length := by
    induction bt with
    | nil => simp
    | cons en bt ih =>
      have := en.text_length
      rw [List.flatMap_cons, List.length_append, List.length_cons]
      omega
  simp only [recordLine, List.length_append, List.length_cons]
  omega

/-- **A record is scanned** with its address and its size; the scan stops in front of the size. -/
theorem scanMsg_recordLine {σ : Type} {cb : ParseCb σ} (memAddr : Ptr) (size : SizeT)
    (bt : List BtEntry) (hmf : cb.mf.isSome) (codeOffs : Ptr) :
    scanMsg cb .onlyS codeOffs (recordLine memAddr size bt) 0 (recordLine memAddr size bt).length =
      .ok (.mf ⟨recordLine memAddr size bt, 1 + (printHex memAddr).length + 2,
        (recordLine memAddr size bt).length⟩ memAddr size codeOffs 0 0) := by
  have hdrop : (recordLine memAddr size bt).drop 1 =
      printHex memAddr ++ ';' :: 's' :: (printInt size.toInt ++ bt.flatMap (·.text)) := by
    simp [recordLine]
  have haddr := scanPtr_behind memAddr
    (t := ';' :: 's' :: (printInt size.toInt ++ bt.flatMap (·.text))) (.inl rfl)
  have hsize : scanULong 10 (printInt size.toInt ++ bt.flatMap (·.text)) =
      some (size, bt.flatMap (·.text)) := by
    refine scanULong_printInt size ?_ ?_
    · cases bt with
      | nil => simp [NoDigit]
      | cons en bt => exact noDigit_cons.mpr (by decide)
    · cases bt with
      | nil => simp
      | cons en bt => simp [BtEntry.text]
  obtain ⟨hfield, -⟩ := scanField_ok (c := 's') hdrop (not_mem_printHex (by decide) (by decide))
    (not_mem_printHex (by decide) (by decide)) (by decide) hsize
  have hchar : scanChar ((recordLine memAddr size bt).drop 0) = some 'm' := rfl
  unfold scanMsg
  rw [hchar]
  simp only [hmf, if_true, scanMalloc, PMask.onlyS, Nat.zero_add, scanAt_ok hdrop haddr, hfield,
    scanField_off, bind, Except.bind, pure, Except.pure]

end Record

section RoundTrip

variable {m : BtMemDisc} {stack trace : List Ptr} {memAddr : Ptr} {size : SizeT}

theorem findCodeAddresses_length (left : Nat) (offs : Ptr) :
    (findCodeAddresses m left offs stack).length ≤ left := by
  induction stack generalizing left offs with
  | nil => cases left <;> simp [findCodeAddresses]
  | cons codeAddr stack ih =>
    cases left with
    | zero => simp [findCodeAddresses]
    | succ left =>
      have hfound : (m.found codeAddr offs).length ≤ 1 := by
        unfold BtMemDisc.found
        split
        · exact le_rfl
        · split <;> simp
      rw [findCodeAddresses]
      split
      · have := ih left (offs + 8)
        rw [List.length_append]
        omega
      · exact ih (left + 1) (offs + 8)

theorem backtrace_length : (m.backtrace stack trace).length ≤ maxBt := by
  unfold BtMemDisc.backtrace
  split
  · unfold runGnuBacktrace
    refine (List.length_map _).trans_le ((List.length_filter_le _ _).trans ?_)
    rw [List.length_drop, List.length_take]
    unfold maxGnuBt maxBt
    omega
  · exact findCodeAddresses_length maxBt 0

/-- **What libmemdisc writes** for an allocation that it records: its line, and maybe the one of the
pointer. The buffer is large enough. -/
theorem postprocessMallocBt_eq (ptr : Option Ptr) (hskip : m.skips size = false)
    (hne : m.backtrace stack trace ≠ []) :
    postprocessMallocBt m stack trace ptr size memAddr =
      .ok (some (recordLine memAddr size (m.backtrace stack trace) ++
        '\n' :: ptr.elim [] fun ptrAddr => 'p' :: printHex ptrAddr ++ ['\n'])) := by
  generalize hbt : m.backtrace stack trace = bt at hne
  have hlen : bt.length ≤ 11 := hbt ▸ backtrace_length
  have hflat : (recordTexts memAddr size bt ptr).flatten = recordLine memAddr size bt ++
      '\n' :: ptr.elim [] fun ptrAddr => 'p' :: printHex ptrAddr ++ ['\n'] := by
    cases ptr <;> simp [recordTexts, recordLine, List.flatMap]
  -- the text is short, has no `nul` in it and ends with a line break
  have htext : ∃ body, (recordTexts memAddr size bt ptr).flatten = body ++ ['\n'] ∧ nul ∉ body ∧
      body.length + 1 < pipeBuf := by
    have hline : IsLine (recordLine memAddr size bt) := recordLine_isLine
    have hlinelen : (recordLine memAddr size bt).length ≤ 41 + 40 * bt.length := recordLine_length
    rw [hflat]
    cases ptr with
    | none => exact ⟨_, rfl, hline.2, by unfold pipeBuf; omega⟩
    | some ptrAddr =>
      have hp := printHex_isLine ptrAddr
      have hplen := length_printHex ptrAddr
      refine ⟨recordLine memAddr size bt ++ '\n' :: 'p' :: printHex ptrAddr, by simp, ?_, ?_⟩
      · simp only [List.mem_append, List.mem_cons, not_or]
        exact ⟨hline.2, by decide, by decide, hp.2⟩
      · simp only [List.length_append, List.length_cons]
        unfold pipeBuf
        omega
  obtain ⟨body, hbody, hnul, hbodylen⟩ := htext
  obtain ⟨calls, hprint⟩ := printAll_padded .signed (recordTexts memAddr size bt ptr) [] pipeBuf_lt
    (t := []) (by
      rw [hbody, List.length_nil, List.length_append, List.length_singleton]
      omega)
  rw [List.nil_append, hbody] at hprint
  have hempty : emptyBuf = ⟨padded pipeBuf [], BitVec.ofNat 32 ([] : Str).length, []⟩ := rfl
  have hpos : (BitVec.ofNat 32 (body ++ ['\n']).length).toNat = body.length + 1 := by
    have := pipeBuf_lt
    rw [BitVec.toNat_ofNat, List.length_append, List.length_singleton]
    omega
  have hposInt : 1 ≤ (BitVec.ofNat 32 (body ++ ['\n']).length).toInt := by
    have := pipeBuf_lt
    rw [BitVec.toInt_eq_toNat_cond, hpos, if_pos (by omega)]
    omega
  have hlast : (padded pipeBuf (body ++ ['\n']))[body.length + 1 - 1]? = some '\n' := by
    simp [padded]
  have hcstr : cstr (padded pipeBuf (body ++ ['\n'])) = body ++ ['\n'] := by
    obtain ⟨k, hk⟩ : ∃ k, pipeBuf - (body ++ ['\n']).length = k + 1 :=
      ⟨pipeBuf - (body ++ ['\n']).length - 1, by simp; omega⟩
    rw [padded, hk, List.replicate_succ]
    refine cstr_append_nul ?_
    simp only [List.mem_append, List.mem_singleton, not_or]
    exact ⟨hnul, by decide⟩
  unfold postprocessMallocBt
  rw [hskip, hbt, if_neg (by decide), if_neg hne, hempty, hprint]
  simp only [Run.ok_bind, hpos, hlast, hposInt, hcstr, and_self, if_true]
  rw [← hflat, hbody]
  rfl

/-- **The round trip.** What libmemdisc has recorded in the stage 3 or 4 is one line, and, wherever
it stands in the buffer of ugtrain, it is parsed with its address, its size and its backtrace. -/
theorem backtrace_roundTrip {σ : Type} {cb : ParseCb σ} (hmf : cb.mf.isSome) {ptr : Option Ptr}
    {text : Str} (h : postprocessMallocBt m stack trace ptr size memAddr = .ok (some text))
    (p y : Str) (codeOffs : Ptr) {stage : Char} (hstage : stage = '3' ∨ stage = '4') :
    ∃ l rest pp, text = l ++ '\n' :: rest ∧ IsLine l ∧
      scanMsg cb .onlyS codeOffs (p ++ (l ++ nul :: y)) p.length (p.length + l.length) =
        .ok (.mf pp memAddr size codeOffs 0 0) ∧
      ∀ inAddr matchesLeft, memAddr ≤ inAddr → inAddr < memAddr + size → matchesLeft ≠ 0 →
        (processDisc1234Malloc stage inAddr matchesLeft pp memAddr size).1 =
          some ((m.backtrace stack trace).map fun en => (en.codeAddr, en.stackOffs.getD 0)) := by
  -- the allocation was recorded
  have hrec : m.skips size = false ∧ m.backtrace stack trace ≠ [] := by
    unfold postprocessMallocBt at h
    cases hskip : m.skips size with
    | true =>
      rw [hskip] at h
      cases h
    | false =>
      refine ⟨rfl, fun hnil => ?_⟩
      rw [hskip, if_neg (by decide), if_pos hnil] at h
      cases h
  obtain ⟨hskip, hne⟩ := hrec
  rw [postprocessMallocBt_eq ptr hskip hne] at h
  cases h
  have hscan := scanMsg_ended (p := p) (y := y)
    (scanMsg_recordLine memAddr size (m.backtrace stack trace) hmf codeOffs)
  refine ⟨_, _, _, rfl, recordLine_isLine, hscan, fun inAddr matchesLeft hlo hhi hleft => ?_⟩
  have hlen : 1 + (printHex memAddr).length + 2 ≤
      (recordLine memAddr size (m.backtrace stack trace)).length := by
    simp [recordLine]
    omega
  have hpos : (recordLine memAddr size (m.backtrace stack trace)).drop
      (1 + (printHex memAddr).length + 2) =
        printInt size.toInt ++ (m.backtrace stack trace).flatMap (·.text) := by
    have hpre : ('m' :: printHex memAddr ++ [';', 's']).length = 1 + (printHex memAddr).length + 2 := by
      simp
      omega
    rw [← hpre, show recordLine memAddr size (m.backtrace stack trace) =
      ('m' :: printHex memAddr ++ [';', 's']) ++
        (printInt size.toInt ++ (m.backtrace stack trace).flatMap (·.text)) by simp [recordLine],
      List.drop_left']
    rfl
  have hsep := behindSep_append (t := (m.backtrace stack trace).flatMap (·.text) ++ nul :: y)
    (printInt_isLine size.toInt).2 (printInt_isLine size.toInt).1.2
  unfold processDisc1234Malloc
  rw [if_pos ⟨hlo, hhi⟩, if_neg hleft, if_pos hstage, Nat.add_comm _ p.length]
  dsimp only
  rw [drop_ended _ hlen, hpos, List.append_assoc, hsep, behindSep_texts, if_neg hne, Option.map_some,
    scanBacktrace_texts backtrace_length hne]

end RoundTrip

/-- Stage 4 without a filter for one code address. -/
def BtMemDisc.stageFour : BtMemDisc where
  stage := 4
  ptrCfg := none
  btFilter := none
  mallocSize := 0
  codeAddr := 0
  useGbt := false
  btSaddr := 0x400000
  btEaddr := 0x4fffff

theorem backtrace_roundTrip_example : ∃ text l rest pp,
    postprocessMallocBt .stageFour [0x400123, 0x7ffc, 0x400456] [] none 8 0x10 = .ok (some text) ∧
    text = l ++ '\n' :: rest ∧
    scanMsg ParseCb.idle .onlyS 0 (['\n'] ++ (l ++ nul :: [])) 1 (1 + l.length) =
      .ok (.mf pp 0x10 8 0 0 0) ∧
    (processDisc1234Malloc '4' 0x12 15 pp 0x10 8).1 = some [(0x400123, 0), (0x400456, 16)] := by
  have hrec : postprocessMallocBt .stageFour [0x400123, 0x7ffc, 0x400456] [] none 8 0x10 =
      .ok (some _) := postprocessMallocBt_eq none (by decide) (by decide)
  obtain ⟨l, rest, pp, htext, -, hscan, hbt⟩ := backtrace_roundTrip
    (show ParseCb.idle.mf.isSome from rfl) hrec ['\n'] [] 0 (show '4' = '3' ∨ '4' = '4' from .inr rfl)
  exact ⟨_, l, rest, pp, hrec, htext, hscan, hbt 0x12 15 (by decide) (by decide) (by decide)⟩

end UgTrain
