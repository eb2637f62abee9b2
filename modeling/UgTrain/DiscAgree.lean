import UgTrain.Discovery

/-!
# Both readings of the discovery string

ugtrain reads the string that it is given, libmemdisc the same string with the end of the line behind
it. The end of the line changes no scan (`scanNum_lineEnd`, `filterName_lineEnd`, `strstr_append`), so
that what is left are the differences of the two programs: `SameReading`.
-/

namespace UgTrain

open CLib

/-! ## What is behind a text -/

/-- What is sent behind the string. -/
def lineEnd : Str := ['\n', nul]

/-- No number goes on in `t`, and none stands at its start. -/
structure Stop (t : Str) : Prop where
  head : ∃ c t', t = c :: t' ∧ (∀ b, digitVal b c = none) ∧ c ≠ 'x' ∧ c ≠ 'X'
  scanNum : ∀ b, scanNum b t = none

theorem stop_lineEnd : Stop lineEnd := ⟨⟨'\n', _, rfl, fun _ => rfl, by decide, by decide⟩, fun _ => rfl⟩

theorem stop_semicolon (t : Str) : Stop (';' :: t) :=
  ⟨⟨';', t, rfl, fun _ => rfl, by decide, by decide⟩, fun _ => rfl⟩

section Stop

variable {s t : Str} {b : Nat}

theorem Stop.noDigit (ht : Stop t) (b : Nat) : NoDigit b t := by
  obtain ⟨c, t, rfl, hdigit, -⟩ := ht.head
  exact noDigit_cons.mpr (hdigit b)

theorem Stop.scanDigits (ht : Stop t) (acc : Nat) (s : Str) :
    scanDigits b acc (s ++ t) = ((CLib.scanDigits b acc s).1, (CLib.scanDigits b acc s).2 ++ t) := by
  induction s generalizing acc with
  | nil => exact scanDigits_noDigit (ht.noDigit b)
  | cons c s ih =>
    rw [List.cons_append, CLib.scanDigits, CLib.scanDigits]
    cases digitVal b c with
    | none => rfl
    | some d => exact ih _

theorem scanBody_cons (b : Nat) (c : Char) (s : Str) : scanBody b (c :: s)
    = if c = '0' ∧ (s.head? = some 'x' ∨ s.head? = some 'X') then
        some (if b = 16 then scanDigits b 0 s.tail else (0, s))
      else if (digitVal b c).isSome then some (scanDigits b 0 (c :: s)) else none := by
  unfold scanBody
  split
  case h_1 heq => cases heq; rfl
  case h_2 heq => cases heq; rfl
  case h_3 hx hX heq =>
    cases heq
    have hno : ¬ (c = '0' ∧ (s.head? = some 'x' ∨ s.head? = some 'X')) := by
      rintro ⟨rfl, h | h⟩
      · obtain ⟨s, rfl⟩ := List.head?_eq_some_iff.mp h
        exact hx s rfl rfl
      · obtain ⟨s, rfl⟩ := List.head?_eq_some_iff.mp h
        exact hX s rfl rfl
    rw [if_neg hno]
  case h_4 heq => cases heq

theorem Stop.scanBody (ht : Stop t) (s : Str) :
    scanBody b (s ++ t) = (CLib.scanBody b s).map fun p => (p.1, p.2 ++ t) := by
  obtain ⟨x, t', rfl, hdigit, hx, hX⟩ := ht.head
  cases s with
  | nil =>
    have hzero : x ≠ '0' := by
      rintro rfl
      exact absurd (hdigit 10) (by decide)
    rw [List.nil_append, scanBody_cons, if_neg (fun h => hzero h.1), hdigit]
    rfl
  | cons c s =>
    have hhead : ∀ y, y ≠ x → ((s ++ x :: t').head? = some y ↔ s.head? = some y) := by
      intro y hy
      cases s with
      | nil => exact iff_of_false (fun h => hy (Option.some.inj h).symm) nofun
      | cons d s => rfl
    rw [List.cons_append, scanBody_cons, scanBody_cons]
    simp only [hhead 'x' hx.symm, hhead 'X' hX.symm]
    split
    · rename_i h
      have htail : (s ++ x :: t').tail = s.tail ++ x :: t' := by
        cases s with
        | nil => rcases h.2 with h | h <;> cases h
        | cons d s => rfl
      rw [htail, ht.scanDigits]
      split <;> rfl
    · split
      · rw [← List.cons_append, ht.scanDigits]
        rfl
      · rfl

/-- A number is read the same with a stop behind the text. -/
theorem Stop.scanNum_append (ht : Stop t) (s : Str) :
    CLib.scanNum b (s ++ t) = (CLib.scanNum b s).map fun p => (p.1, p.2.1, p.2.2 ++ t) := by
  by_cases hne : s.dropWhile isSpace = []
  · have hdrop : (s ++ t).dropWhile isSpace = t.dropWhile isSpace := by
      rw [List.dropWhile_append, if_pos (by simpa using hne)]
    have hstop := ht.scanNum b
    unfold CLib.scanNum at hstop ⊢
    rw [hdrop, hstop, hne]
    rfl
  · have hdrop : (s ++ t).dropWhile isSpace = s.dropWhile isSpace ++ t := by
      rw [List.dropWhile_append, if_neg (by simpa using hne)]
    unfold CLib.scanNum
    rw [hdrop, scanSign_append hne]
    generalize scanSign (s.dropWhile isSpace) = sign
    dsimp only
    rw [ht.scanBody]
    cases CLib.scanBody b sign.2 <;> rfl

theorem Stop.scanLong (ht : Stop t) (s : Str) :
    scanLong (s ++ t) = (CLib.scanLong s).map fun p => (p.1, p.2 ++ t) := by
  unfold CLib.scanLong
  rw [ht.scanNum_append]
  cases CLib.scanNum 10 s <;> rfl

theorem Stop.scanPtr (ht : Stop t) (s : Str) :
    scanPtr (s ++ t) = (CLib.scanPtr s).map fun p => (p.1, p.2 ++ t) := by
  obtain ⟨x, t', rfl, hdigit, hx, -⟩ := ht.head
  have hzero : x ≠ '0' := by
    rintro rfl
    exact absurd (hdigit 10) (by decide)
  unfold CLib.scanPtr
  rcases s with _ | ⟨c, _ | ⟨d, s⟩⟩
  · simp [scanLit, hzero]
  · by_cases hc : c = '0' <;> simp [scanLit, hc, hx]
  · by_cases hc : c = '0' ∧ d = 'x'
    · obtain ⟨rfl, rfl⟩ := hc
      change scanULong 16 (s ++ x :: t') = (scanULong 16 s).map _
      unfold scanULong
      rw [ht.scanNum_append]
      cases CLib.scanNum 16 s <;> rfl
    · have hlit : ∀ r, scanLit ['0', 'x'] (c :: d :: r) = none := by
        intro r
        unfold scanLit
        split
        · rename_i h0
          unfold scanLit
          rw [if_neg fun hd => hc ⟨h0, hd⟩]
        · rfl
      rw [List.cons_append, List.cons_append, hlit, hlit]
      rfl

end Stop

section LineEnd

variable {s t : Str} {i : Nat}

theorem scanLit_lineEnd (s : Str) :
    scanLit [';'] (s ++ lineEnd) = (scanLit [';'] s).map (· ++ lineEnd) := by
  cases s with
  | nil => rfl
  | cons c s =>
    rw [List.cons_append]
    unfold scanLit
    split <;> rfl

/-- The first `;;` is the first one with any text behind. -/
theorem strstr_append (h : strstr s ";;".toList = some i) :
    strstr (s ++ t) ";;".toList = some i ∧ ∃ r, s = s.take i ++ ';' :: ';' :: r := by
  induction s generalizing i with
  | nil => cases h
  | cons c s ih =>
    rw [strstr] at h
    split at h
    · rename_i hprefix
      obtain ⟨r, hr⟩ := List.isPrefixOf_iff_prefix.mp hprefix
      obtain rfl := Option.some.inj h
      rw [← hr]
      exact ⟨rfl, r, rfl⟩
    · rename_i hprefix
      split at h
      · cases h
      · rename_i hnul
        obtain ⟨j, hj, rfl⟩ := Option.map_eq_some_iff.mp h
        obtain ⟨hj', r, hr⟩ := ih hj
        refine ⟨?_, r, by rw [List.take_succ_cons, List.cons_append, ← hr]⟩
        obtain ⟨d, s', rfl⟩ : ∃ d s', s = d :: s' := by
          cases s with
          | nil => cases hj
          | cons d s' => exact ⟨d, s', rfl⟩
        have hsame : ";;".toList.isPrefixOf (c :: d :: s' ++ t)
            = ";;".toList.isPrefixOf (c :: d :: s') := rfl
        rw [List.cons_append, strstr, ← List.cons_append, hsame, if_neg hprefix, if_neg hnul, hj']
        rfl

theorem strchr_lineEnd (hs : nul ∉ s) : strchr (s ++ lineEnd) ';' = strchr s ';' := by
  induction s with
  | nil => rfl
  | cons c s ih =>
    rw [List.cons_append, strchr, strchr, ih (fun h => hs (List.mem_cons_of_mem _ h))]

theorem filterName_lineEnd (hs : nul ∉ s) :
    filterName (s ++ lineEnd) = (filterName s).map fun p => (p.1, p.2 ++ lineEnd) := by
  rcases s with _ | ⟨c, _ | ⟨d, s⟩⟩
  · rfl
  · by_cases hc : c = ';'
    · subst hc
      rfl
    · unfold filterName
      simp [hc, lineEnd]
  · by_cases hc : c = ';'
    · subst hc
      have hs' : nul ∉ d :: s := fun h => hs (List.mem_cons_of_mem _ h)
      have hchr := strchr_lineEnd hs'
      rw [List.cons_append, List.cons_append, filterName, filterName]
      split
      · rw [← List.cons_append, hchr]
        cases hi : strchr (d :: s) ';' with
        | none => rfl
        | some i =>
          have hlt := (strchr_lt hi).le
          rw [Option.map_some, Option.map_some, List.take_append_of_le_length hlt,
            List.drop_append_of_le_length hlt]
          rfl
      · rfl
    · unfold filterName
      simp [hc]

theorem endsBeforeNum_lineEnd (hs : nul ∉ s) (hne : s ≠ []) :
    endsBeforeNum (s ++ lineEnd) = endsBeforeNum s := by
  obtain ⟨c, s, rfl⟩ := List.exists_cons_of_ne_nil hne
  have hs' : nul ∉ s := fun h => hs (List.mem_cons_of_mem _ h)
  have hcstr : cstr (s ++ lineEnd) = s ++ ['\n'] := by
    have : s ++ lineEnd = (s ++ ['\n']) ++ nul :: [] := by simp [lineEnd]
    rw [this, cstr_append_nul]
    simpa using ⟨hs', by decide⟩
  rw [List.cons_append, endsBeforeNum, endsBeforeNum, hcstr, cstr_of_not_mem hs', List.all_append]
  simp [isSpace]

end LineEnd

/-! ## The differences -/

/-- The config of a pointer, between the `p` and the first `;;`. -/
def readPtr : Str → Option (Option PtrCfg)
  | 'p' :: s => (scanPtrCfg (s.take ((strstr s ";;".toList).getD 0))).map some
  | _ => some none

/-- The text from the stage on. -/
def stagePart (s : Str) : Str := (discOffs s).elim [] (s.drop ·)

/-- The text behind the stage 3 or 4, where the filter may stand. -/
def filterPart (s : Str) : Str :=
  match stagePart s with
  | [] => []
  | stage :: s => if stage = '3' then skipGbt s else if stage = '4' then s else []

/-- The number is a `long`. -/
def FitsLong (neg : Bool) (n : Nat) : Prop := n < 2 ^ 63 ∨ neg = true ∧ n = 2 ^ 63

/-- What the two programs read in different ways does not stand in the string. -/
structure SameReading (s : Str) : Prop where
  /-- The config of a pointer has all its numbers, and a code address in the stages 1 and 2. -/
  ptr : (stagePart s).head? ≠ some '0' → ∃ ptr, readPtr s = some ptr ∧
    ((stagePart s).head? = some '1' ∨ (stagePart s).head? = some '2' →
      ∀ cfg ∈ ptr, cfg.codeAddr ≠ 0)
  /-- A name behind the stage 3 that begins with `gbt` is `gbt`. -/
  gbt : ∀ r, stagePart s = '3' :: r → r.take 4 = ";gbt".toList → r.take 5 = ";gbt;".toList
  /-- The name of a filter that begins with `exe` is `exe`. -/
  exe : ∀ name p, filterName (filterPart s) = some (some name, p) →
    name.take 3 = exeLib → name = exeLib
  size : ∀ name p neg n r, filterName (filterPart s) = some (name, p) →
    (scanLit [';'] p).bind (scanNum 10) = some (neg, n, r) → FitsLong neg n

section Init

variable {s u t x : Str} {i offs : Nat} {stage : Char} {r : Str} {ptr : Option PtrCfg}

theorem scanSemi_sep {α : Type} {f : Str → Option (α × Str)} (hstop : f (';' :: x) = none)
    (happ : ∀ u, f (u ++ ';' :: ';' :: x) = (f u).map fun p => (p.1, p.2 ++ ';' :: ';' :: x))
    (u : Str) : (scanLit [';'] (u ++ ';' :: ';' :: x)).bind f
      = ((scanLit [';'] u).bind f).map fun p => (p.1, p.2 ++ ';' :: ';' :: x) := by
  cases u with
  | nil => exact hstop
  | cons c u =>
    rw [List.cons_append]
    unfold scanLit
    split
    · exact happ u
    · rfl

/-- The config of a pointer ends before the first `;;`. -/
theorem scanPtrCfg_sep (u x : Str) : scanPtrCfg (u ++ ';' :: ';' :: x) = scanPtrCfg u := by
  have hlong := scanSemi_sep (f := scanLong) (x := x) rfl (stop_semicolon _).scanLong
  have hptr := scanSemi_sep (f := scanPtr) (x := x) rfl (stop_semicolon _).scanPtr
  have hcfg : ∀ s, scanPtrCfg s = ((scanLit [';'] s).bind scanLong).bind fun memSize =>
      ((scanLit [';'] memSize.2).bind scanPtr).bind fun codeAddr =>
      ((scanLit [';'] codeAddr.2).bind scanPtr).bind fun stackOffs =>
      ((scanLit [';'] stackOffs.2).bind scanPtr).map fun ptrOffs =>
        ⟨memSize.1, codeAddr.1, stackOffs.1, ptrOffs.1⟩ := by
    intro s
    unfold scanPtrCfg
    simp only [Option.bind_eq_bind, Option.bind_assoc, Option.map_eq_bind, Option.pure_def]
    rfl
  rw [hcfg, hcfg, hlong]
  cases (scanLit [';'] u).bind scanLong with
  | none => rfl
  | some p₁ =>
    dsimp only [Option.map_some, Option.bind_some]
    rw [hptr]
    cases (scanLit [';'] p₁.2).bind scanPtr with
    | none => rfl
    | some p₂ =>
      dsimp only [Option.map_some, Option.bind_some]
      rw [hptr]
      cases (scanLit [';'] p₂.2).bind scanPtr with
      | none => rfl
      | some p₃ =>
        dsimp only [Option.map_some, Option.bind_some]
        rw [hptr]
        cases (scanLit [';'] p₃.2).bind scanPtr <;> rfl

theorem discOffs_cases (hoffs : discOffs s = some offs) :
    (∃ s' i, s = 'p' :: s' ∧ strstr s' ";;".toList = some i ∧ offs = i + 3 ∧
      readPtr s = (scanPtrCfg (s'.take i)).map some) ∨
    (∀ s', s ≠ 'p' :: s') ∧ offs = 0 ∧ readPtr s = some none := by
  by_cases hp : ∃ s', s = 'p' :: s'
  · obtain ⟨s', rfl⟩ := hp
    obtain ⟨i, hi, rfl⟩ := Option.map_eq_some_iff.mp hoffs
    refine .inl ⟨s', i, rfl, hi, rfl, ?_⟩
    rw [readPtr, hi]
    rfl
  · rw [not_exists] at hp
    rw [discOffs.eq_2 s hp] at hoffs
    exact .inr ⟨hp, (Option.some.inj hoffs).symm, readPtr.eq_2 s hp⟩

/-- libmemdisc comes to the same stage. -/
theorem memdiscInit_eq (hoffs : discOffs s = some offs) (hpart : s.drop offs = stage :: r)
    (hstage : '1' ≤ stage ∧ stage ≤ '4') :
    memdiscInit (s ++ t) = (readPtr s).bind fun ptr => readStage ptr (stage :: r ++ t) := by
  rcases discOffs_cases hoffs with ⟨s, i, rfl, hi, rfl, hread⟩ | ⟨hp, rfl, hread⟩
  · obtain ⟨hi', x, hx⟩ := strstr_append (t := t) hi
    have hdrop : (s ++ t).drop (i + 2) = stage :: r ++ t := by
      have hlen : i + 2 ≤ s.length := by
        have := congrArg List.length hpart
        rw [List.length_drop, List.length_cons, List.length_cons] at this
        omega
      rw [List.drop_append_of_le_length hlen, ← hpart]
      rfl
    have hcfg : scanPtrCfg (s ++ t) = scanPtrCfg (s.take i) := by
      conv_lhs => rw [hx, List.append_assoc]
      exact scanPtrCfg_sep _ _
    rw [List.cons_append]
    change (scanPtrCfg (s ++ t)).bind (fun cfg => (strstr (s ++ t) ";;".toList).bind fun pos =>
      readStage (some cfg) ((s ++ t).drop (pos + 2))) = _
    rw [hcfg, hi', hread]
    cases scanPtrCfg (s.take i) with
    | none => rfl
    | some cfg => exact congrArg (readStage (some cfg)) hdrop
  · rw [List.drop_zero] at hpart
    subst hpart
    rw [hread, List.cons_append]
    rw [memdiscInit.eq_2 _ _ fun heq => hp r (by rw [heq])]
    exact if_pos hstage

/-- `disc_str->at(0)` is the stage. -/
theorem first_eq (hoffs : discOffs s = some offs) (hpart : s.drop offs = stage :: r) (lib : Str)
    (addr : Ptr) (size : SizeT) : (Disc.mk (s ++ t) offs lib addr size).first = stage := by
  have hne : s ≠ [] := by
    rintro rfl
    rw [List.drop_nil] at hpart
    cases hpart
  have hlen : offs ≤ s.length := by
    have := congrArg List.length hpart
    rw [List.length_drop, List.length_cons] at this
    omega
  unfold Disc.first
  dsimp only
  rw [List.drop_append_of_le_length hlen, hpart]
  rcases discOffs_cases hoffs with ⟨s, i, rfl, -, -, -⟩ | ⟨hp, rfl, -⟩
  · rfl
  · rw [List.drop_zero] at hpart
    subst hpart
    rw [if_neg]
    · rfl
    · intro h
      exact hp r (by rw [Option.some.inj h])

theorem offs_pos_iff (hoffs : discOffs s = some offs) (hptr : readPtr s = some ptr) :
    0 < offs ↔ ptr.isSome := by
  rcases discOffs_cases hoffs with ⟨s, i, rfl, -, rfl, hread⟩ | ⟨-, rfl, hread⟩
  · rw [hread] at hptr
    obtain ⟨cfg, -, rfl⟩ := Option.map_eq_some_iff.mp hptr
    exact iff_of_true (Nat.succ_pos _) rfl
  · obtain rfl := Option.some.inj (hread.symm.trans hptr)
    exact iff_of_false (Nat.lt_irrefl 0) nofun

end Init

/-! ## The stages -/

section Stages

variable {s r : Str} {offs : Nat} {ptr : Option PtrCfg} {d : Disc}

theorem scanSizeAddr_map {f : Str → Option (Value × Str)} (s : Str) :
    (scanSizeAddr f s).map (·.1) = ((scanLit [';'] s).bind f).map (·.1) := by
  unfold scanSizeAddr
  cases scanLit [';'] s with
  | none => rfl
  | some s =>
    change (Option.map _ ((f s).bind _)) = (f s).map _
    cases f s <;> rfl

theorem toULong_eq_toLong (neg : Bool) (n : Nat) :
    toULong neg n = toLong neg n ↔ FitsLong neg n := by
  have hmax : (BitVec.allOnes 64).toNat = 2 ^ 64 - 1 := BitVec.toNat_allOnes
  rw [← BitVec.toNat_inj]
  unfold toULong toLong FitsLong
  cases neg with
  | false =>
    simp only [Bool.false_eq_true, ↓reduceIte, false_and, or_false]
    split <;> split <;> simp only [hmax, BitVec.toNat_ofNat, true_iff] <;> omega
  | true =>
    simp only [↓reduceIte, true_and]
    split <;> split <;> simp only [hmax, BitVec.toNat_ofNat, BitVec.toNat_neg, true_iff] <;> omega

/-- The size is the same if the number is a `long`. -/
theorem scanSize_lineEnd (p : Str) {size : Value} {addr : Ptr}
    (h : scanSizeAddr (scanULong 10) p = some (size, addr)) :
    ∃ size' addr', scanSizeAddr scanLong (p ++ lineEnd) = some (size', addr') ∧
      (size = size' ↔ ∀ neg n r, (scanLit [';'] p).bind (scanNum 10) = some (neg, n, r) →
        FitsLong neg n) := by
  have hmap := scanSizeAddr_map (f := scanULong 10) p
  have hmap' := scanSizeAddr_map (f := scanLong) (p ++ lineEnd)
  rw [h] at hmap
  rw [scanLit_lineEnd] at hmap'
  cases hlit : scanLit [';'] p with
  | none => rw [hlit] at hmap; cases hmap
  | some p' =>
    rw [hlit] at hmap hmap'
    simp only [Option.map_some, Option.bind_some] at hmap hmap' ⊢
    rw [stop_lineEnd.scanLong] at hmap'
    unfold scanULong at hmap
    unfold scanLong at hmap'
    cases hnum : scanNum 10 p' with
    | none => rw [hnum] at hmap; cases hmap
    | some num =>
      obtain ⟨neg, n, r⟩ := num
      rw [hnum] at hmap hmap'
      obtain ⟨⟨size', addr'⟩, hsize', heq⟩ := Option.map_eq_some_iff.mp hmap'
      refine ⟨size', addr', hsize', ?_⟩
      have h1 : size = toULong neg n := Option.some.inj hmap
      have h2 : size' = toLong neg n := heq
      rw [h1, h2, toULong_eq_toLong]
      constructor
      · intro hfits neg' n' r' hnum'
        cases hnum'
        exact hfits
      · intro hall
        exact hall neg n r rfl

/-- The names that the filter may have. -/
theorem filterName_name {p p' name : Str} (h : filterName p = some (some name, p')) :
    ∃ c rest, name = c :: rest ∧ c.isAlpha := by
  unfold filterName at h
  split at h
  · rename_i c s
    split at h
    · rename_i halpha
      obtain ⟨i, hi, heq⟩ := Option.map_eq_some_iff.mp h
      obtain ⟨pre, rest, hs, rfl, -, -⟩ := (strchr_eq_some (by decide)).mp hi
      obtain rfl : (c :: s).take pre.length = name := Option.some.inj (Prod.mk.inj heq).1
      rw [hs, List.take_left' rfl]
      cases pre with
      | nil =>
        obtain rfl := (List.cons.inj hs).1
        exact absurd halpha (by decide)
      | cons c' pre =>
        obtain rfl := (List.cons.inj hs).1
        exact ⟨c, pre, rfl, halpha⟩
    · cases h
  · cases h

theorem Disc.filter_none (h : d.discLib = []) : d.filter = .none ∧ d.answers = 0 :=
  ⟨if_pos h, if_pos h⟩

theorem Disc.filter_exe (h : d.discLib = discExe) : d.filter = .exe ∧ d.answers = 3 := by
  unfold Disc.filter Disc.answers
  rw [h]
  exact ⟨rfl, rfl⟩

theorem Disc.filter_lib {c : Char} {rest : Str} (hc : c ≠ '\x01') (h : d.discLib = c :: rest) :
    d.filter = .lib (c :: rest) ∧ d.answers = 2 := by
  have hhead : d.discLib.head? ≠ some '\x01' := by
    rw [h]
    exact fun h => hc (Option.some.inj h)
  have hne : d.discLib ≠ [] := by
    rw [h]
    exact List.cons_ne_nil c rest
  unfold Disc.filter Disc.answers
  rw [if_neg hne, if_neg hhead, if_neg hne, if_neg hhead, h]
  exact ⟨rfl, rfl⟩

theorem MemDisc.filter_eq {m : MemDisc} {bt : Option Str} (h : m.btFilter = bt) :
    m.filter = (bt.elim .none fun name => if name = [] then .exe else .lib name) ∧
      m.reads = bt.elim 0 fun name => if name = [] then 3 else 2 := by
  unfold MemDisc.filter MemDisc.reads
  rw [h]
  rcases bt with _ | _ | ⟨c, rest⟩ <;> exact ⟨rfl, rfl⟩

/-- Both programs have the same filter, and then send and read as many addresses. -/
theorem filter_iff {p p' : Str} {name : Option Str} (h : filterName p = some (name, p')) {m : MemDisc}
    (hlib : d.discLib = name.elim [] setDiscLib) (hm : m.btFilter = name.map setBtFilter) :
    (d.filter = m.filter ↔ ∀ n, name = some n → n.take 3 = exeLib → n = exeLib) ∧
    (d.filter = m.filter → d.answers = m.reads) := by
  obtain ⟨hmf, hmr⟩ := MemDisc.filter_eq hm
  rw [hmf, hmr]
  cases name with
  | none =>
    obtain ⟨hf, ha⟩ := Disc.filter_none hlib
    rw [hf, ha]
    exact ⟨iff_of_true rfl nofun, fun _ => rfl⟩
  | some n =>
    obtain ⟨c, rest, rfl, halpha⟩ := filterName_name h
    by_cases h3 : (c :: rest).take 3 = exeLib
    · obtain ⟨hf, ha⟩ := Disc.filter_exe (hlib.trans (if_pos h3))
      rw [hf, ha]
      by_cases hexe : c :: rest = exeLib
      · have hbt : setBtFilter (c :: rest) = [] := if_pos hexe
        simp only [Option.map_some, Option.elim_some, hbt]
        exact ⟨iff_of_true rfl fun n hn _ => Option.some.inj hn ▸ hexe, fun _ => rfl⟩
      · have hbt : setBtFilter (c :: rest) = c :: rest := if_neg hexe
        simp only [Option.map_some, Option.elim_some, hbt]
        exact ⟨iff_of_false nofun fun h => hexe (h _ rfl h3), nofun⟩
    · have hc : c ≠ '\x01' := by
        rintro rfl
        exact absurd halpha (by decide)
      have hexe : c :: rest ≠ exeLib := fun h => h3 (by rw [h]; rfl)
      have hbt : setBtFilter (c :: rest) = c :: rest := if_neg hexe
      obtain ⟨hf, ha⟩ := Disc.filter_lib hc (hlib.trans (if_neg h3))
      rw [hf, ha]
      simp only [Option.map_some, Option.elim_some, hbt]
      exact ⟨iff_of_true rfl fun n hn hn3 => absurd (Option.some.inj hn ▸ hn3) h3, fun _ => rfl⟩

/-- The stages 3 and 4 agree in the filter and in the size. -/
theorem stage34_agree {x : Str} {k : Nat} {useGbt : Bool} (hx : nul ∉ x) (hk : 3 ≤ k)
    (hd : prepareStage34 s offs x = some d) (hstage : d.stage = k) (hwaits : d.waits = true) :
    DiscAgree d (readStage34 k ptr useGbt (x ++ lineEnd)) ↔
      (∀ name p, filterName x = some (some name, p) → name.take 3 = exeLib → name = exeLib) ∧
      ∀ name p neg n r, filterName x = some (name, p) →
        (scanLit [';'] p).bind (scanNum 10) = some (neg, n, r) → FitsLong neg n := by
  obtain ⟨⟨name, p⟩, hname, hd⟩ := Option.bind_eq_some_iff.mp hd
  obtain ⟨⟨size, addr⟩, hsize, hd⟩ := Option.bind_eq_some_iff.mp hd
  dsimp only at hsize hd
  split at hd
  · cases hd
  obtain rfl := Option.some.inj hd
  obtain ⟨size', addr', hsize', hsame⟩ := scanSize_lineEnd p hsize
  have hread : readStage34 k ptr useGbt (x ++ lineEnd)
      = some ⟨k, ptr, name.map setBtFilter, size', if k = 3 then 0 else addr',
        useGbt && size' ≠ 0⟩ := by
    unfold readStage34
    rw [filterName_lineEnd hx, hname]
    change (scanSizeAddr scanLong (p ++ lineEnd)).bind _ = _
    rw [hsize']
    rfl
  obtain ⟨hfilter, hanswers⟩ := filter_iff (d := ⟨s, offs, name.elim [] setDiscLib, addr, size⟩)
    (m := ⟨k, ptr, name.map setBtFilter, size', if k = 3 then 0 else addr', useGbt && size' ≠ 0⟩)
    hname rfl rfl
  have hnotifies : ∀ m : MemDisc, m.stage = k → m.notifies = true := by
    intro m hm
    unfold MemDisc.notifies
    rw [hm, decide_eq_true hk]
    rfl
  rw [hread]
  constructor
  · rintro ⟨-, hf, hs, -, -⟩
    refine ⟨fun n q hq => hfilter.mp hf n ?_, fun _ q neg n r hq => ?_⟩
    · rw [hname] at hq
      exact (Prod.mk.inj (Option.some.inj hq)).1
    · rw [hname] at hq
      obtain ⟨-, rfl⟩ := Prod.mk.inj (Option.some.inj hq)
      exact hsame.mp (hs (hstage ▸ hk)) neg n r
  · rintro ⟨hexe, hlong⟩
    have hf := hfilter.mpr fun n hn => hexe n p (hn ▸ hname)
    exact {
      stage := hstage
      filter := hf
      size := fun _ => hsame.mpr fun neg n r => hlong name p neg n r hname
      waits := hwaits.trans (hnotifies _ rfl).symm
      answers := fun _ => hanswers hf }

/-- The word behind the stage 3. -/
theorem gbt_prefix {w : Str} (h : scanWord w = gbtCmd) : gbtCmd <+: w.dropWhile isSpace := by
  unfold scanWord at h
  rw [← h]
  exact (List.take_prefix _ _).trans ((List.takeWhile_prefix _).trans (List.takeWhile_prefix _))

theorem filterName_no (h : ∀ c s', s = ';' :: c :: s' → c.isAlpha = false) :
    filterName s = some (none, s) := by
  unfold filterName
  split
  · rename_i c s'
    rw [h c s' rfl]
    rfl
  · rfl

theorem wantsGbt_true (x : Str) : wantsGbt (";gbt".toList ++ x) = true := by
  change decide (some (scanWord ('g' :: 'b' :: 't' :: x)) = some gbtCmd) = true
  rw [decide_eq_true_iff]
  rfl

/-- A text that does not begin with `gbt` is no request for the GNU backtrace, if it is accepted. -/
theorem wantsGbt_false (hne : r.take 4 ≠ ";gbt".toList) (hd : prepareStage34 s offs r = some d) :
    wantsGbt (r ++ lineEnd) = false := by
  rw [← Bool.not_eq_true]
  intro hwants
  obtain ⟨w, hw, hword⟩ := Option.map_eq_some_iff.mp (decide_eq_true_iff.mp hwants)
  rw [scanLit_lineEnd] at hw
  obtain ⟨r', hr', rfl⟩ := Option.map_eq_some_iff.mp hw
  obtain rfl : r = ';' :: r' := scanLit_eq_some hr'
  have hprefix := gbt_prefix hword
  by_cases hnil : r'.dropWhile isSpace = []
  · rw [List.dropWhile_append, if_pos (by simpa using hnil)] at hprefix
    exact absurd hprefix (by decide)
  rw [List.dropWhile_append, if_neg (by simpa using hnil)] at hprefix
  -- The end of the line is no part of the word.
  have hin : gbtCmd <+: r'.dropWhile isSpace := by
    revert hprefix
    rcases r'.dropWhile isSpace with _ | ⟨x, _ | ⟨y, _ | ⟨z, v⟩⟩⟩ <;>
      simp [gbtCmd, lineEnd]
  obtain ⟨v, hv⟩ := hin
  cases r' with
  | nil => exact hnil rfl
  | cons c r' =>
    by_cases hc : isSpace c = true
    · -- ugtrain has found no number.
      have hnum : scanNum 10 (c :: r') = none := by
        unfold scanNum
        rw [← hv]
        rfl
      have halpha : c.isAlpha = false := by
        simp only [isSpace, Bool.or_eq_true, decide_eq_true_eq] at hc
        rcases hc with ((((rfl | rfl) | rfl) | rfl) | rfl) | rfl <;> rfl
      have hname : filterName (';' :: c :: r') = some (none, ';' :: c :: r') :=
        filterName_no fun _ _ heq => (List.cons.inj (List.cons.inj heq).2).1 ▸ halpha
      unfold prepareStage34 at hd
      rw [hname] at hd
      change (scanSizeAddr (scanULong 10) (';' :: c :: r')).bind _ = _ at hd
      have hsize : scanSizeAddr (scanULong 10) (';' :: c :: r') = none := by
        change (scanULong 10 (c :: r')).bind _ = none
        unfold scanULong
        rw [hnum]
        rfl
      rw [hsize] at hd
      cases hd
    · rw [List.dropWhile_cons, if_neg hc] at hv
      refine hne ?_
      rw [← hv]
      rfl

/-- Behind `gbt` libmemdisc looks for the size at once. -/
theorem readStage34_gbt {c : Char} {x : Str} (hc : c ≠ ';') :
    readStage34 3 ptr true (c :: x) = none := by
  have hname : filterName (c :: x) = some (none, c :: x) :=
    filterName_no fun _ _ heq => absurd (List.cons.inj heq).1 hc
  have hsize : scanSizeAddr scanLong (c :: x) = none := by
    unfold scanSizeAddr scanLit
    rw [if_neg hc]
    rfl
  unfold readStage34
  rw [hname]
  change (scanSizeAddr scanLong (c :: x)).bind _ = none
  rw [hsize]
  rfl

/-- The stages 1 and 2 agree if both wait or neither. -/
theorem stage12_agree {stage : Char} {t : Str} {size : SizeT} (hoffs : discOffs s = some offs)
    (hpart : s.drop offs = stage :: r) (hstage : stage = '1' ∨ stage = '2')
    (hread : ∀ ptr, ∃ size', readStage ptr (stage :: r ++ (t ++ lineEnd))
      = some ⟨stage.toNat - '0'.toNat, ptr, none, size', 0, false⟩) :
    DiscAgree ⟨s ++ t, offs, [], 0, size⟩ (memdiscInit (s ++ t ++ lineEnd)) ↔
      ∃ ptr, readPtr s = some ptr ∧ ∀ cfg ∈ ptr, cfg.codeAddr ≠ 0 := by
  have hfirst := first_eq (t := t) hoffs hpart [] 0 size
  have hrange : '1' ≤ stage ∧ stage ≤ '4' := by rcases hstage with rfl | rfl <;> decide
  have hsmall : ¬ 3 ≤ stage.toNat - '0'.toNat := by rcases hstage with rfl | rfl <;> decide
  have hpos : stage.toNat - '0'.toNat ≠ 0 := by rcases hstage with rfl | rfl <;> decide
  have hst : (Disc.mk (s ++ t) offs [] 0 size).stage = stage.toNat - '0'.toNat := by
    unfold Disc.stage
    rw [hfirst]
  have hwaits : (Disc.mk (s ++ t) offs [] 0 size).waits = decide (0 < offs) := by
    unfold Disc.waits
    rw [hfirst]
    rcases hstage with rfl | rfl <;> rfl
  rw [List.append_assoc, memdiscInit_eq hoffs hpart hrange]
  cases hptr : readPtr s with
  | none =>
    refine iff_of_false (fun hagree => hpos ?_) nofun
    rw [← hst]
    exact hagree.stage
  | some ptr =>
    obtain ⟨size', hsize'⟩ := hread ptr
    rw [Option.bind_some, hsize']
    have hnotifies : (MemDisc.mk (stage.toNat - '0'.toNat) ptr none size' 0 false).notifies
        = ptr.any (·.codeAddr ≠ 0) := by
      unfold MemDisc.notifies
      rw [decide_eq_false hsmall]
      rfl
    have hoffs' := offs_pos_iff hoffs hptr
    have hsame : decide (0 < offs) = ptr.any (·.codeAddr ≠ 0) ↔ ∀ cfg ∈ ptr, cfg.codeAddr ≠ 0 := by
      cases ptr with
      | none => simpa using hoffs'
      | some cfg => simp [hoffs']
    constructor
    · intro hagree
      refine ⟨ptr, rfl, hsame.mp ?_⟩
      rw [← hwaits, ← hnotifies]
      exact hagree.waits
    · rintro ⟨ptr', hptr', haddr⟩
      obtain rfl := Option.some.inj hptr'
      exact {
        stage := hst
        filter := rfl
        size := fun h => absurd (hst ▸ h) hsmall
        waits := by rw [hwaits, hsame.mpr haddr]; exact hnotifies.symm
        answers := fun _ => rfl }

theorem prepareStage34_eq {x : Str} (hd : prepareStage34 s offs x = some d) :
    ∃ lib addr size, d = ⟨s, offs, lib, addr, size⟩ := by
  obtain ⟨⟨name, p⟩, -, hd⟩ := Option.bind_eq_some_iff.mp hd
  obtain ⟨⟨size, addr⟩, -, hd⟩ := Option.bind_eq_some_iff.mp hd
  dsimp only at hd
  split at hd
  · cases hd
  · exact ⟨_, _, _, (Option.some.inj hd).symm⟩

/-- In the stages 3 and 4 both wait, if libmemdisc has come so far. -/
theorem stage34_iff (useGbt : Bool) {stage : Char} {x : Str} {k : Nat}
    (hoffs : discOffs s = some offs) (hpart : s.drop offs = stage :: r)
    (hstage : '3' ≤ stage ∧ stage ≤ '4') (hk : k = stage.toNat - '0'.toNat) (hx : nul ∉ x)
    (hd : prepareStage34 s offs x = some d)
    (hread : ∀ ptr, readStage ptr (stage :: r ++ lineEnd) = readStage34 k ptr useGbt (x ++ lineEnd)) :
    DiscAgree d (memdiscInit (s ++ lineEnd)) ↔
      (∃ ptr, readPtr s = some ptr) ∧
      (∀ name p, filterName x = some (some name, p) → name.take 3 = exeLib → name = exeLib) ∧
      ∀ name p neg n r, filterName x = some (name, p) →
        (scanLit [';'] p).bind (scanNum 10) = some (neg, n, r) → FitsLong neg n := by
  obtain ⟨lib, addr, size, rfl⟩ := prepareStage34_eq hd
  have hfirst : (Disc.mk s offs lib addr size).first = stage := by
    have := first_eq (t := []) hoffs hpart lib addr size
    rwa [List.append_nil] at this
  have hst : (Disc.mk s offs lib addr size).stage = k := by
    unfold Disc.stage
    rw [hfirst, hk]
  have hrange : '1' ≤ stage ∧ stage ≤ '4' := ⟨le_trans (by decide) hstage.1, hstage.2⟩
  have hk3 : 3 ≤ k := by
    have : '3'.toNat ≤ stage.toNat := hstage.1
    rw [hk]
    exact Nat.sub_le_sub_right this '0'.toNat
  have hwaits : (Disc.mk s offs lib addr size).waits = true := by
    unfold Disc.waits
    rw [hfirst, decide_eq_true hrange.1, decide_eq_true hrange.2, decide_eq_true hstage.1]
    rfl
  rw [memdiscInit_eq hoffs hpart hrange]
  cases readPtr s with
  | none =>
    refine iff_of_false (fun hagree => ?_) fun h => by cases h.1.choose_spec
    have : (Disc.mk s offs lib addr size).stage = 0 := hagree.stage
    omega
  | some ptr =>
    rw [Option.bind_some, hread ptr]
    exact (stage34_agree hx hk3 hd hst hwaits).trans (and_iff_right ⟨ptr, rfl⟩).symm

/-! ## The string -/

theorem stagePart_eq {stage : Char} (hoffs : discOffs s = some offs)
    (hpart : s.drop offs = stage :: r) : stagePart s = stage :: r := by
  unfold stagePart
  rw [hoffs]
  exact hpart

/-- In the stages 1 and 2 there is no filter. -/
theorem sameReading_12 {stage : Char} (hpart : stagePart s = stage :: r)
    (hstage : stage = '1' ∨ stage = '2') :
    SameReading s ↔ ∃ ptr, readPtr s = some ptr ∧ ∀ cfg ∈ ptr, cfg.codeAddr ≠ 0 := by
  have hne : stage ≠ '0' ∧ stage ≠ '3' ∧ stage ≠ '4' := by rcases hstage with rfl | rfl <;> decide
  have hfilter : filterPart s = [] := by
    unfold filterPart
    rw [hpart]
    dsimp only
    rw [if_neg hne.2.1, if_neg hne.2.2]
  have hhead : (stagePart s).head? = some stage := by rw [hpart]; rfl
  constructor
  · intro h
    obtain ⟨ptr, hptr, haddr⟩ := h.ptr (by rw [hhead]; exact fun h => hne.1 (Option.some.inj h))
    refine ⟨ptr, hptr, haddr ?_⟩
    rw [hhead]
    exact hstage.imp (congrArg some) (congrArg some)
  · rintro ⟨ptr, hptr, haddr⟩
    exact {
      ptr := fun _ => ⟨ptr, hptr, fun _ => haddr⟩
      gbt := fun r' hr' => absurd (List.cons.inj (hpart.symm.trans hr')).1 hne.2.1
      exe := by
        rw [hfilter]
        rintro name p ⟨⟩
      size := by
        rw [hfilter]
        rintro name p neg n r' ⟨⟩ ⟨⟩ }

/-- In the stages 3 and 4 a config of a pointer may do without a code address. -/
theorem sameReading_34 {stage : Char} {x : Str} (hpart : stagePart s = stage :: r)
    (hstage : stage = '3' ∨ stage = '4') (hfilter : filterPart s = x) :
    SameReading s ↔
      (stage = '3' → r.take 4 = ";gbt".toList → r.take 5 = ";gbt;".toList) ∧
      (∃ ptr, readPtr s = some ptr) ∧
      (∀ name p, filterName x = some (some name, p) → name.take 3 = exeLib → name = exeLib) ∧
      ∀ name p neg n r, filterName x = some (name, p) →
        (scanLit [';'] p).bind (scanNum 10) = some (neg, n, r) → FitsLong neg n := by
  have hne : stage ≠ '0' ∧ stage ≠ '1' ∧ stage ≠ '2' := by rcases hstage with rfl | rfl <;> decide
  have hhead : (stagePart s).head? = some stage := by rw [hpart]; rfl
  subst hfilter
  constructor
  · intro h
    obtain ⟨ptr, hptr, -⟩ := h.ptr (by rw [hhead]; exact fun h => hne.1 (Option.some.inj h))
    exact ⟨fun h3 => h.gbt r (h3 ▸ hpart), ⟨ptr, hptr⟩, h.exe, h.size⟩
  · rintro ⟨hgbt, ⟨ptr, hptr⟩, hexe, hsize⟩
    refine ⟨fun _ => ⟨ptr, hptr, ?_⟩, fun r' hr' => ?_, hexe, hsize⟩
    · rw [hhead]
      rintro (h | h)
      · exact absurd (Option.some.inj h) hne.2.1
      · exact absurd (Option.some.inj h) hne.2.2
    · obtain ⟨rfl, rfl⟩ := List.cons.inj (hpart.symm.trans hr')
      exact hgbt rfl

/-- Without a stage libmemdisc stays inactive. -/
theorem stage0_agree (hpart : stagePart s = '0' :: r) :
    DiscAgree ⟨"0".toList, 0, [], 0, 0⟩ (memdiscInit ("0".toList ++ lineEnd)) ∧ SameReading s := by
  have hfilter : filterPart s = [] := by
    unfold filterPart
    rw [hpart]
    rfl
  refine ⟨⟨rfl, rfl, fun h => absurd h (by decide), rfl, fun h => absurd h (by decide)⟩, ?_⟩
  exact {
    ptr := fun h => absurd (by rw [hpart]; rfl) h
    gbt := fun r' hr' => absurd (List.cons.inj (hpart.symm.trans hr')).1 (by decide)
    exe := by
      rw [hfilter]
      rintro name p ⟨⟩
    size := by
      rw [hfilter]
      rintro name p neg n r' ⟨⟩ ⟨⟩ }

theorem stage12_iff {stage : Char} (hoffs : discOffs s = some offs) (hpart : s.drop offs = stage :: r)
    (hstage : stage = '1' ∨ stage = '2') (hr : nul ∉ r)
    (h : (if r = [] then some (Disc.mk (s ++ ";0".toList) offs [] 0 0)
      else if endsBeforeNum r then none
      else some ⟨s, offs, [], 0, ((scanSizeAddr (scanULong 10) r).map (·.1)).getD 0⟩) = some d) :
    DiscAgree d (memdiscInit (d.discStr ++ lineEnd)) ↔ SameReading s := by
  rw [sameReading_12 (stagePart_eq hoffs hpart) hstage]
  split at h
  · subst r
    obtain rfl := Option.some.inj h
    refine stage12_agree hoffs hpart hstage fun ptr => ?_
    rcases hstage with rfl | rfl
    · exact ⟨0, rfl⟩
    · exact ⟨0, rfl⟩
  · rename_i hne
    split at h
    · cases h
    rename_i hends
    obtain rfl := Option.some.inj h
    generalize ((scanSizeAddr (scanULong 10) r).map (·.1)).getD 0 = size
    have hagree : DiscAgree ⟨s ++ [], offs, [], 0, size⟩ (memdiscInit (s ++ [] ++ lineEnd)) ↔ _ :=
      stage12_agree hoffs hpart hstage fun ptr => ?_
    · rwa [List.append_nil] at hagree
    · rcases hstage with rfl | rfl
      · exact ⟨0, rfl⟩
      · refine ⟨((scanSizeAddr scanLong (r ++ lineEnd)).map (·.1)).getD 0, ?_⟩
        change (if endsBeforeNum (r ++ lineEnd) then none else _) = _
        rw [endsBeforeNum_lineEnd hr hne, if_neg hends]
        rfl

/-- Behind the stage 3 both find `gbt`, none of them does, or libmemdisc finds no size. -/
theorem stage3_iff (hoffs : discOffs s = some offs) (hpart : s.drop offs = '3' :: r) (hr : nul ∉ r)
    (h : prepareStage34 s offs (skipGbt r) = some d) :
    DiscAgree d (memdiscInit (d.discStr ++ lineEnd)) ↔ SameReading s := by
  have hstage := stagePart_eq hoffs hpart
  have hfilter : filterPart s = skipGbt r := by
    unfold filterPart
    rw [hstage]
    rfl
  have hstr : d.discStr = s := by
    obtain ⟨lib, addr, size, rfl⟩ := prepareStage34_eq h
    rfl
  have hread : ∀ ptr, readStage ptr ('3' :: r ++ lineEnd) = readStage34 3 ptr
      (wantsGbt (r ++ lineEnd)) (if wantsGbt (r ++ lineEnd) then (r ++ lineEnd).drop 4
        else r ++ lineEnd) := fun _ => rfl
  rw [sameReading_34 hstage (.inl rfl) hfilter, hstr]
  by_cases h5 : r.take 5 = ";gbt;".toList
  · obtain ⟨x, rfl⟩ : ∃ x, r = ";gbt".toList ++ ';' :: x :=
      ⟨r.drop 5, by rw [← List.take_append_drop 5 r, h5]; rfl⟩
    have hx : nul ∉ ';' :: x := fun hx => hr (List.mem_append_right _ hx)
    rw [and_iff_right fun _ _ => h5]
    refine stage34_iff true hoffs hpart (by decide) rfl hx h fun ptr => ?_
    rw [hread, List.append_assoc, wantsGbt_true]
    rfl
  · have hskip : skipGbt r = r := if_neg h5
    rw [hskip] at h ⊢
    by_cases h4 : r.take 4 = ";gbt".toList
    · refine iff_of_false (fun hagree => ?_) fun hsame => h5 (hsame.1 rfl h4)
      obtain ⟨x, rfl⟩ : ∃ x, r = ";gbt".toList ++ x :=
        ⟨r.drop 4, by rw [← h4, List.take_append_drop]⟩
      have hnone : memdiscInit (s ++ lineEnd) = none := by
        rw [memdiscInit_eq hoffs hpart (by decide)]
        have hgbt : ∀ ptr, readStage ptr ('3' :: (";gbt".toList ++ x) ++ lineEnd) = none := by
          intro ptr
          rw [hread, List.append_assoc, wantsGbt_true]
          change readStage34 3 ptr true (x ++ lineEnd) = none
          cases x with
          | nil => exact readStage34_gbt (by decide)
          | cons c x =>
            refine readStage34_gbt ?_
            rintro rfl
            exact h5 rfl
        cases readPtr s with
        | none => rfl
        | some ptr => exact hgbt ptr
      obtain ⟨lib, addr, size, rfl⟩ := prepareStage34_eq h
      have hfirst := first_eq (t := []) hoffs hpart lib addr size
      rw [List.append_nil] at hfirst
      have hzero := hagree.stage
      rw [hnone] at hzero
      unfold Disc.stage at hzero
      rw [hfirst] at hzero
      exact absurd hzero (by decide)
    · rw [and_iff_right fun _ h4' => absurd h4' h4]
      refine stage34_iff false hoffs hpart (by decide) rfl hr h fun ptr => ?_
      rw [hread, wantsGbt_false h4 h]
      rfl

theorem stage4_iff (hoffs : discOffs s = some offs) (hpart : s.drop offs = '4' :: r) (hr : nul ∉ r)
    (h : prepareStage34 s offs r = some d) :
    DiscAgree d (memdiscInit (d.discStr ++ lineEnd)) ↔ SameReading s := by
  have hstage := stagePart_eq hoffs hpart
  have hfilter : filterPart s = r := by
    unfold filterPart
    rw [hstage]
    rfl
  have hstr : d.discStr = s := by
    obtain ⟨lib, addr, size, rfl⟩ := prepareStage34_eq h
    rfl
  rw [sameReading_34 hstage (.inr rfl) hfilter, hstr, and_iff_right fun h3 => absurd h3 (by decide)]
  exact stage34_iff false hoffs hpart (by decide) rfl hr h fun ptr => rfl

/-- **The two parsers of the discovery string** agree exactly on the strings without the differences. -/
theorem discAgree_iff {msg : Str} (hs : nul ∉ s) (h : prepareDiscovery s = some d)
    (hsend : sendDiscovery d = some msg) : DiscAgree d (memdiscInit msg) ↔ SameReading s := by
  have hmsg : d.discStr ++ lineEnd = msg := by
    unfold sendDiscovery at hsend
    split at hsend
    · cases hsend
    · exact Option.some.inj hsend
  subst hmsg
  obtain ⟨offs, hoffs, h⟩ := Option.bind_eq_some_iff.mp h
  cases hpart : s.drop offs with
  | nil => rw [hpart] at h; cases h
  | cons stage r =>
    have hr : nul ∉ r := fun hr =>
      hs (List.mem_of_mem_drop (i := offs) (hpart ▸ List.mem_cons_of_mem _ hr))
    rw [hpart] at h
    dsimp only at h
    split at h
    · subst stage
      obtain rfl := Option.some.inj h
      obtain ⟨hagree, hsame⟩ := stage0_agree (stagePart_eq hoffs hpart)
      exact iff_of_true hagree hsame
    split at h
    · rename_i h12
      exact stage12_iff hoffs hpart h12 hr h
    split at h
    · subst stage
      exact stage3_iff hoffs hpart hr h
    split at h
    · subst stage
      exact stage4_iff hoffs hpart hr h
    · cases h

end Stages

theorem discAgree_example :
    DiscAgree ⟨"p;64;0x700;0x8;0x10;;3;gbt;exe;20".toList, 21, discExe, 0, 20⟩
        (memdiscInit "p;64;0x700;0x8;0x10;;3;gbt;exe;20\n\x00".toList) ↔
      SameReading "p;64;0x700;0x8;0x10;;3;gbt;exe;20".toList :=
  discAgree_iff (by decide +kernel) (by decide +kernel) (by decide +kernel)

/-- The filter `exefoo` is the executable for ugtrain and a library for libmemdisc. -/
theorem discAgree_not : ¬ ∀ (s msg : Str) (d : Disc), nul ∉ s → prepareDiscovery s = some d →
    sendDiscovery d = some msg → DiscAgree d (memdiscInit msg) := by
  intro h
  have hagree := h "3;exefoo;20".toList "3;exefoo;20\n\x00".toList
    ⟨"3;exefoo;20".toList, 0, discExe, 0, 20⟩ (by decide +kernel) (by decide +kernel)
    (by decide +kernel)
  exact absurd hagree.filter (by decide +kernel)

end UgTrain
