import UgTrain.CLib.Fields
import UgTrain.CLib.Strto
import UgTrain.CLib.TextFile
import UgTrain.Process

/-!
# The stack end in `/proc/$pid/stat` (`maps_l.c`)

`get_stack_end` counts blanks from the first `)` of the line, and takes the word behind the 27th for the
stack end. The process name is in parentheses and may contain both. `getStackEnd_iff`: the word is the
28th field for all processes with a name exactly if no blank is behind the first `)` of the name.

* `StatLine` is a line as the kernel writes it, `StatLine.words` is what is between the blanks behind
  the first `)`.
-/

namespace CLib

/-- `strtoul`, with `none` where it sets `errno`. -/
def strtoulErrno (b : Nat) (s : List Char) : Option (BitVec 64) :=
  match scanNum b s with
  | some (neg, n, _) => if 2 ^ 64 ≤ n then none else some (toULong neg n)
  | none => some 0

/-- `getline` of the standard library: the line with its line break, `none` at the end of the file. -/
def freadLine (text : List Char) : Option (List Char) :=
  match text with
  | [] => none
  | text =>
    match getline text with
    | (l, none) => some l
    | (l, some _) => some (l ++ ['\n'])

end CLib

namespace UgTrain

open CLib

/-- `STRCHR` for the two parentheses: behind the first `c`. -/
def skipPast (c : Char) : Str → Option Str
  | [] => none
  | x :: epos => if x = nul then none else if x = c then some epos else skipPast c epos

/-- `STRCHR` for the blanks: behind the one that makes `i` the index. -/
def skipBlanks (stackEndIdx : Nat) : Nat → Str → Option Str
  | _, [] => none
  | i, x :: epos =>
    if x = nul then none
    else if x = ' ' then
      if i + 1 = stackEndIdx then some epos else skipBlanks stackEndIdx (i + 1) epos
    else skipBlanks stackEndIdx i epos

/-- `STRCHR` for the end of the field: the field itself. -/
def cutField : Str → Option Str
  | [] => none
  | x :: epos =>
    if x = nul then none else if x = ' ' then some [] else (cutField epos).map (x :: ·)

/-- The field that `get_stack_end` takes for the stack end. -/
def stackEndField (line : Str) : Option Str := do
  let epos ← skipPast '(' line
  let epos ← skipPast ')' epos
  let spos ← skipBlanks 27 1 epos
  cutField spos

/-- The stack end that a field says. -/
def stackEndOf (rstart rend : Ptr) (field : Str) : Ptr :=
  match strtoulErrno 10 field with
  | none => rstart
  | some stackEnd =>
    if stackEnd < rstart ∨ rend < stackEnd ∨ stackEnd < rstart + ((rend - rstart) >>> 1) then rstart
    else stackEnd

/-- `/proc/%u/stat` -/
def statPath (pid : BitVec 32) : Str := "/proc/".toList ++ printDec pid.toNat ++ "/stat".toList

/-- `get_stack_end`. -/
def getStackEnd (files : Str → Option Str) (pid : BitVec 32) (rstart rend : Ptr) : Ptr :=
  match (files (statPath pid)).bind freadLine with
  | none => rstart
  | some line =>
    match stackEndField line with
    | none => rstart
    | some field => stackEndOf rstart rend field

/-! ## Lines -/

/-- The name of a process: line breaks do not get into the file. -/
structure Comm where
  text : Str
  nul : nul ∉ text
  newline : '\n' ∉ text

/-- A line of `/proc/$pid/stat`. -/
structure StatLine where
  pid : BitVec 32
  comm : Comm
  state : Char
  /-- The 4th to the 27th field. -/
  before : List Int
  /-- The 28th field. -/
  startstack : Ptr
  after : List Int
  state_ok : state ≠ ' ' ∧ state ≠ nul ∧ state ≠ '\n'
  before_length : before.length = 24
  after_ne : after ≠ []

/-- The fields in front of the stack end, without the first two. -/
def StatLine.front (l : StatLine) : List Str := [l.state] :: l.before.map printInt

/-- The fields behind the name. -/
def StatLine.fields (l : StatLine) : List Str :=
  l.front ++ printDec l.startstack.toNat :: l.after.map printInt

/-- The text of the line. -/
def StatLine.text (l : StatLine) : Str :=
  printDec l.pid.toNat ++ ' ' :: '(' :: (l.comm.text ++ ')' :: ' ' :: ([' '].intercalate l.fields ++
    ['\n']))

/-- What is behind the first `)` of a name in parentheses. -/
def Comm.rest (c : Comm) : Str := ((c.text ++ [')']).dropWhile (· ≠ ')')).tail

/-- A blank is behind a `)` of the name. -/
def Comm.Misleads (c : Comm) : Prop := ∃ p q r, c.text = p ++ ')' :: (q ++ ' ' :: r)

/-- The words behind the first `)` of the line. -/
def StatLine.words (l : StatLine) : List Str := l.comm.rest.splitOn ' ' ++ l.fields

/-- The word that is taken for the 28th field. -/
def StatLine.word (l : StatLine) : Str := l.words.getD 26 []

/-- A word in front of the 28th field: of the name, or of a field as many places earlier as blanks are
behind the first `)` of the name. -/
def StatLine.earlier (l : StatLine) : Str := (l.comm.rest.splitOn ' ' ++ l.front).getD 26 []

/-- `stack_end` is in the upper half of the stack. -/
def UpperHalf (rstart rend stackEnd : Ptr) : Prop :=
  rstart.toNat ≤ stackEnd.toNat ∧ stackEnd.toNat ≤ rend.toNat ∧
    (rstart.toNat + rend.toNat) / 2 ≤ stackEnd.toNat

instance (rstart rend stackEnd : Ptr) : Decidable (UpperHalf rstart rend stackEnd) :=
  inferInstanceAs (Decidable (_ ∧ _))

/-- The stack end of a process with its stack from `rstart` on. -/
def StatLine.stackEnd (l : StatLine) (rstart rend : Ptr) : Ptr :=
  if UpperHalf rstart rend l.startstack then l.startstack else rstart

/-- `get_stack_end` takes the 28th field. -/
def StatLine.Reads (l : StatLine) : Prop :=
  ∀ files rstart rend, files (statPath l.pid) = some l.text →
    getStackEnd files l.pid rstart rend = l.stackEnd rstart rend

/-! ## Scanning -/

section Scan

variable {c : Char} {s r t w : Str} {ws : List Str} {i k : Nat}

theorem skipPast_append (hs : nul ∉ s) (hc : c ≠ nul) :
    skipPast c (s ++ c :: r) = some (((s ++ [c]).dropWhile (· ≠ c)).tail ++ r) := by
  induction s with
  | nil => simp [skipPast, hc]
  | cons x s ih =>
    simp only [List.mem_cons, not_or] at hs
    rw [List.cons_append, skipPast, if_neg (Ne.symm hs.1)]
    by_cases hx : x = c
    · rw [if_pos hx]
      simp [hx]
    · rw [if_neg hx, ih hs.2]
      simp [hx]

theorem skipBlanks_word {n : Nat} (hb : ' ' ∉ w) (hn : nul ∉ w) :
    skipBlanks n i (w ++ ' ' :: r) = if i + 1 = n then some r else skipBlanks n (i + 1) r := by
  induction w with
  | nil => rw [List.nil_append, skipBlanks, if_neg (by decide), if_pos rfl]
  | cons x w ih =>
    simp only [List.mem_cons, not_or] at hb hn
    rw [List.cons_append, skipBlanks, if_neg (Ne.symm hn.1), if_neg (Ne.symm hb.1), ih hb.2 hn.2]

theorem cutField_word (hb : ' ' ∉ w) (hn : nul ∉ w) : cutField (w ++ ' ' :: r) = some w := by
  induction w with
  | nil => rw [List.nil_append, cutField, if_neg (by decide), if_pos rfl]
  | cons x w ih =>
    simp only [List.mem_cons, not_or] at hb hn
    rw [List.cons_append, cutField, if_neg (Ne.symm hn.1), if_neg (Ne.symm hb.1), ih hb.2 hn.2]
    rfl

/-- Behind `k + 1` blanks there are `k + 1` words less. -/
theorem skipBlanks_words (hws : ∀ w ∈ ws, ' ' ∉ w ∧ nul ∉ w) (hk : k + 1 < ws.length) :
    skipBlanks (i + k + 1) i ([' '].intercalate ws ++ t) =
      some ([' '].intercalate (ws.drop (k + 1)) ++ t) := by
  induction k generalizing i ws with
  | zero =>
    rcases ws with _ | ⟨w, _ | ⟨y, ws⟩⟩
    · cases hk
    · simp at hk
    obtain ⟨hb, hn⟩ := hws w (by simp)
    rw [List.intercalate_cons_cons, List.append_assoc, List.append_assoc, List.singleton_append,
      skipBlanks_word hb hn, if_pos rfl]
    rfl
  | succ k ih =>
    rcases ws with _ | ⟨w, _ | ⟨y, ws⟩⟩
    · cases hk
    · simp at hk
    obtain ⟨hb, hn⟩ := hws w (by simp)
    have hidx : i + (k + 1) + 1 = i + 1 + k + 1 := by omega
    rw [List.intercalate_cons_cons, List.append_assoc, List.append_assoc, List.singleton_append,
      skipBlanks_word hb hn, if_neg (by omega), hidx,
      ih (fun z hz => hws z (List.mem_cons_of_mem _ hz)) (by simpa using hk)]
    rfl

/-- The field behind `k + 1` blanks, if another blank is behind it. -/
theorem word_of_blanks (hws : ∀ w ∈ ws, ' ' ∉ w ∧ nul ∉ w) (hk : k + 2 < ws.length) :
    (skipBlanks (i + k + 1) i ([' '].intercalate ws ++ t)).bind cutField = ws[k + 1]? := by
  rw [skipBlanks_words hws (by omega), Option.bind_some]
  have hmem : ws[k + 1] ∈ ws := List.getElem_mem _
  obtain ⟨hb, hn⟩ := hws _ hmem
  have hne : ws.drop (k + 1 + 1) ≠ [] := by
    rw [ne_eq, List.drop_eq_nil_iff]
    omega
  rw [List.drop_eq_getElem_cons (by omega), List.intercalate_cons_of_ne_nil hne, List.append_assoc,
    List.append_assoc, List.singleton_append, cutField_word hb hn, List.getElem?_eq_getElem]

theorem printInt_not_mem {c : Char} (hc : digitVal 10 c = none) (hm : c ≠ '-') (n : Int) :
    c ∉ printInt n := by
  have hdigits : c ∉ printDec n.natAbs := fun h =>
    digit_ne (digit_of_mem_toDigits (by decide) (by decide) _ h) hc rfl
  unfold printInt
  split
  · simpa [hm] using hdigits
  · exact hdigits

theorem freadLine_line (hs : '\n' ∉ s) : freadLine (s ++ ['\n']) = some (s ++ ['\n']) := by
  have hline : getline (s ++ ['\n']) = (s, some []) := getline_line hs []
  unfold freadLine
  split
  · rename_i h
    exact absurd h (by simp)
  · rw [hline]

end Scan

/-! ## The upper half -/

theorem strtoulErrno_printDec (x : Ptr) : strtoulErrno 10 (printDec x.toNat) = some x := by
  have hdigits : Digits 10 (printDec x.toNat) x.toNat :=
    digits_toDigits (by decide) (by decide) x.toNat
  have hlt := x.isLt
  rw [strtoulErrno, scanNum_digits hdigits (by decide)]
  dsimp only
  rw [if_neg (by omega), toULong, if_neg (by omega)]
  simp

theorem not_upperHalf (rstart rend x : Ptr) :
    (x < rstart ∨ rend < x ∨ x < rstart + ((rend - rstart) >>> 1)) ↔ ¬ UpperHalf rstart rend x := by
  simp only [BitVec.lt_def, UpperHalf]
  by_cases hle : rstart.toNat ≤ rend.toNat
  · have hhalf : (rstart + ((rend - rstart) >>> 1)).toNat =
        rstart.toNat + (rend.toNat - rstart.toNat) / 2 := by
      have hlt := rend.isLt
      rw [BitVec.toNat_add, BitVec.toNat_ushiftRight, BitVec.toNat_sub_of_le hle,
        Nat.shiftRight_one]
      exact Nat.mod_eq_of_lt (by omega)
    rw [hhalf]
    omega
  · omega

theorem stackEndOf_printDec (rstart rend x : Ptr) : stackEndOf rstart rend (printDec x.toNat) =
    if UpperHalf rstart rend x then x else rstart := by
  rw [stackEndOf, strtoulErrno_printDec]
  dsimp only
  by_cases h : UpperHalf rstart rend x
  · rw [if_pos h, if_neg (mt (not_upperHalf rstart rend x).mp (not_not.mpr h))]
  · rw [if_neg h, if_pos ((not_upperHalf rstart rend x).mpr h)]

/-! ## The field -/

namespace StatLine

variable (l : StatLine)

theorem fields_ok : ∀ w ∈ l.fields, ' ' ∉ w ∧ CLib.nul ∉ w ∧ '\n' ∉ w := by
  have hint : ∀ n : Int, ' ' ∉ printInt n ∧ CLib.nul ∉ printInt n ∧ '\n' ∉ printInt n := fun n =>
    ⟨printInt_not_mem (by decide) (by decide) n, printInt_not_mem (by decide) (by decide) n,
      printInt_not_mem (by decide) (by decide) n⟩
  intro w hw
  simp only [fields, front, List.cons_append, List.mem_cons, List.mem_append, List.mem_map] at hw
  rcases hw with rfl | ⟨n, -, rfl⟩ | rfl | ⟨n, -, rfl⟩
  · obtain ⟨hb, hn, hnl⟩ := l.state_ok
    simpa using ⟨Ne.symm hb, Ne.symm hn, Ne.symm hnl⟩
  · exact hint n
  · exact hint (l.startstack.toNat : Int)
  · exact hint n

theorem rest_not_mem {c : Char} (hc : c ≠ ')') (h : c ∉ l.comm.text) : c ∉ l.comm.rest := by
  intro hm
  have hmem := (List.dropWhile_suffix _).subset (List.mem_of_mem_tail hm)
  simp [h, hc] at hmem

theorem words_ok : ∀ w ∈ l.words, ' ' ∉ w ∧ CLib.nul ∉ w := by
  intro w hw
  rcases List.mem_append.mp hw with hw | hw
  · exact ⟨fun h => (mem_splitOn hw h).2 rfl, fun h =>
      l.rest_not_mem (by decide) l.comm.nul (mem_splitOn hw h).1⟩
  · exact ⟨(l.fields_ok w hw).1, (l.fields_ok w hw).2.1⟩

theorem fields_length : 27 ≤ l.fields.length := by
  have hafter := List.length_pos_of_ne_nil l.after_ne
  simp only [fields, front, List.length_append, List.length_cons, List.length_map, l.before_length]
  omega

theorem words_length : 28 ≤ l.words.length := by
  have hrest := List.length_pos_of_ne_nil (List.splitOn_ne_nil ' ' l.comm.rest)
  have hfields := l.fields_length
  rw [words, List.length_append]
  omega

/-- What is behind the first `)`. -/
theorem intercalate_words : [' '].intercalate l.words =
    l.comm.rest ++ ' ' :: [' '].intercalate l.fields := by
  have hne : l.fields ≠ [] := List.ne_nil_of_length_pos (by have := l.fields_length; omega)
  rw [words, intercalate_append hne, sepText_eq (List.splitOn_ne_nil ' ' l.comm.rest),
    List.intercalate_splitOn, List.append_assoc]
  rfl

theorem pid_not_mem {c : Char} (hc : digitVal 10 c = none) (hb : c ≠ ' ') :
    c ∉ printDec l.pid.toNat ++ [' '] := by
  intro h
  rcases List.mem_append.mp h with h | h
  · exact digit_ne (digit_of_mem_toDigits (by decide) (by decide) _ h) hc rfl
  · exact hb (List.mem_singleton.mp h)

theorem word_eq : l.words[26]? = some l.word := by
  have hlt : 26 < l.words.length := by
    have := l.words_length
    omega
  rw [word, List.getD_eq_getElem _ _ hlt, List.getElem?_eq_getElem hlt]

theorem text_eq : l.text = printDec l.pid.toNat ++ [' '] ++ '(' :: (l.comm.text ++
    ')' :: (' ' :: [' '].intercalate l.fields ++ ['\n'])) := by
  simp [text]

/-- **The word** that `get_stack_end` comes to. -/
theorem stackEndField_text : stackEndField l.text = some l.word := by
  have hname : skipPast '(' l.text =
      some (l.comm.text ++ ')' :: (' ' :: [' '].intercalate l.fields ++ ['\n'])) := by
    rw [text_eq, skipPast_append (l.pid_not_mem (by decide) (by decide)) (by decide)]
    have hp := l.pid_not_mem (c := '(') (by decide) (by decide)
    rw [List.dropWhile_append_of_pos fun x hx => by
      simpa using fun h : x = '(' => hp (h ▸ hx)]
    rfl
  have hrest := skipPast_append (c := ')') (r := ' ' :: [' '].intercalate l.fields ++ ['\n'])
    l.comm.nul (by decide)
  have hwords : l.comm.rest ++ (' ' :: [' '].intercalate l.fields ++ ['\n']) =
      [' '].intercalate l.words ++ ['\n'] := by
    rw [intercalate_words, List.append_assoc]
  have hword := word_of_blanks (i := 1) (k := 25) (t := ['\n']) l.words_ok
    (by have := l.words_length; omega)
  rw [word_eq] at hword
  rw [stackEndField, hname, Option.bind_eq_bind, Option.bind_some, hrest]
  change (some (l.comm.rest ++ _)).bind _ = _
  rw [hwords]
  exact hword

theorem freadLine_text : freadLine l.text = some l.text := by
  have hcomm := l.comm.newline
  have hpid := l.pid_not_mem (c := '\n') (by decide) (by decide)
  have hfields : '\n' ∉ [' '].intercalate l.fields :=
    not_mem_intercalate (by decide) fun w hw => (l.fields_ok w hw).2.2
  have htext : l.text = printDec l.pid.toNat ++ [' '] ++ '(' :: (l.comm.text ++
      ')' :: ' ' :: [' '].intercalate l.fields) ++ ['\n'] := by
    simp [text]
  rw [htext]
  refine freadLine_line fun h => ?_
  simp only [List.mem_append, List.mem_cons, hcomm, hfields] at h hpid
  exact hpid (.inl (by simpa using h))

/-- What `get_stack_end` gives for a process with the line. -/
theorem getStackEnd_eq {files : Str → Option Str} (hfile : files (statPath l.pid) = some l.text)
    (rstart rend : Ptr) : getStackEnd files l.pid rstart rend = stackEndOf rstart rend l.word := by
  rw [getStackEnd, hfile, Option.bind_some, freadLine_text]
  dsimp only
  rw [stackEndField_text]

end StatLine

/-! ## The name -/

theorem blank_mem_rest (s : Str) : ' ' ∈ ((s ++ [')']).dropWhile (· ≠ ')')).tail ↔
    ∃ p q r, s = p ++ ')' :: (q ++ ' ' :: r) := by
  induction s with
  | nil => simp
  | cons x s ih =>
    by_cases hx : x = ')'
    · subst hx
      have hmem : ' ' ∈ s ++ [')'] ↔ ' ' ∈ s := by simp
      rw [List.cons_append, List.dropWhile_cons_of_neg (by simp), List.tail_cons, hmem]
      constructor
      · intro h
        obtain ⟨q, r, rfl⟩ := List.append_of_mem h
        exact ⟨[], q, r, rfl⟩
      · rintro ⟨p, q, r, h⟩
        rcases p with _ | ⟨y, p⟩
        · cases h
          simp
        · cases h
          simp
    · rw [List.cons_append, List.dropWhile_cons_of_pos (by simpa using hx), ih]
      constructor
      · rintro ⟨p, q, r, rfl⟩
        exact ⟨x :: p, q, r, rfl⟩
      · rintro ⟨p, q, r, h⟩
        rcases p with _ | ⟨y, p⟩
        · exact absurd (List.cons.inj h).1 hx
        · exact ⟨p, q, r, (List.cons.inj h).2⟩

theorem Comm.misleads_iff (c : Comm) : c.Misleads ↔ ' ' ∈ c.rest := (blank_mem_rest c.text).symm

namespace StatLine

/-- Without such a blank the word is the 28th field. -/
theorem word_of_no_blank (l : StatLine) (h : ¬ l.comm.Misleads) :
    l.word = printDec l.startstack.toNat := by
  rw [Comm.misleads_iff] at h
  have hfront : l.front.length = 25 := by simp [front, l.before_length]
  rw [word, words, List.splitOn_eq_singleton h, fields, List.singleton_append,
    List.getD_cons_succ, List.getD_append_right _ _ _ _ (by omega), hfront]
  rfl

theorem word_of_blank (l : StatLine) (h : l.comm.Misleads) : l.word = l.earlier := by
  rw [Comm.misleads_iff] at h
  have hlen : 2 ≤ (l.comm.rest.splitOn ' ').length := by
    by_contra hlt
    have hne := List.length_pos_of_ne_nil (List.splitOn_ne_nil ' ' l.comm.rest)
    obtain ⟨w, hw⟩ := List.length_eq_one_iff.mp (by omega : (l.comm.rest.splitOn ' ').length = 1)
    have hrest : [' '].intercalate (l.comm.rest.splitOn ' ') = l.comm.rest :=
      List.intercalate_splitOn ' '
    rw [hw, List.intercalate_singleton] at hrest
    have hmem : w ∈ l.comm.rest.splitOn ' ' := by simp [hw]
    exact (mem_splitOn hmem (hrest ▸ h)).2 rfl
  have hfront : l.front.length = 25 := by simp [front, l.before_length]
  rw [word, words, fields, ← List.append_assoc]
  refine List.getD_append _ _ _ _ ?_
  rw [List.length_append]
  omega

end StatLine

theorem stackEndOf_cases (rstart rend : Ptr) (field : Str) :
    stackEndOf rstart rend field = rstart ∨
      strtoulErrno 10 field = some (stackEndOf rstart rend field) := by
  unfold stackEndOf
  cases h : strtoulErrno 10 field with
  | none => exact .inl rfl
  | some x =>
    dsimp only
    split
    · exact .inl rfl
    · exact .inr rfl

/-- A line with 0 in all the other fields. -/
def sleeping (comm : Comm) (startstack : Ptr) : StatLine where
  pid := 1
  comm := comm
  state := 'S'
  before := List.replicate 24 0
  startstack := startstack
  after := [0]
  state_ok := by decide
  before_length := List.length_replicate
  after_ne := by decide

/-- For a name with such a blank, some stack end is not read. -/
theorem exists_not_reads {comm : Comm} (h : comm.Misleads) :
    ∃ x, ¬ (sleeping comm x).Reads := by
  have hw : ∀ x, (sleeping comm x).word = (sleeping comm 0).earlier := fun x =>
    (sleeping comm x).word_of_blank h
  generalize (sleeping comm 0).earlier = w at hw
  have hx : ∃ x : Ptr, x ≠ 0 ∧ strtoulErrno 10 w ≠ some x := by
    by_cases h1 : strtoulErrno 10 w = some 1
    · exact ⟨2, by decide, by rw [h1]; decide⟩
    · exact ⟨1, by decide, h1⟩
  obtain ⟨x, hx0, hxw⟩ := hx
  refine ⟨x, fun hreads => ?_⟩
  have hend := hreads (fun _ => some (sleeping comm x).text) 0 x rfl
  have hhalf : UpperHalf 0 x (sleeping comm x).startstack :=
    ⟨Nat.zero_le _, le_refl _, by change (0 + x.toNat) / 2 ≤ x.toNat; omega⟩
  rw [StatLine.getStackEnd_eq _ rfl, hw, StatLine.stackEnd, if_pos hhalf] at hend
  change stackEndOf 0 x w = x at hend
  rcases stackEndOf_cases 0 x w with h0 | hval
  · exact hx0 (hend.symm.trans h0)
  · rw [hend] at hval
    exact hxw hval

/-- **The stack end** is the 28th field of all processes with a name exactly if the name has no blank
behind a `)`. A line of another name is read right only if an earlier word says the same. -/
theorem getStackEnd_iff (comm : Comm) :
    ((∀ l : StatLine, l.comm = comm → l.Reads) ↔ ¬ comm.Misleads) ∧
    ∀ l : StatLine, l.comm = comm → ∀ files rstart rend, files (statPath l.pid) = some l.text →
      (getStackEnd files l.pid rstart rend = l.stackEnd rstart rend ↔
        ¬ comm.Misleads ∨ stackEndOf rstart rend l.earlier = l.stackEnd rstart rend) := by
  have hread : ∀ l : StatLine, ¬ l.comm.Misleads → l.Reads := fun l h files rstart rend hfile => by
    rw [l.getStackEnd_eq hfile, l.word_of_no_blank h, stackEndOf_printDec]
    rfl
  refine ⟨⟨fun hall h => ?_, fun h l hl => hread l (hl ▸ h)⟩, ?_⟩
  · obtain ⟨x, hx⟩ := exists_not_reads h
    exact hx (hall (sleeping comm x) rfl)
  · rintro l rfl files rstart rend hfile
    by_cases h : l.comm.Misleads
    · rw [l.getStackEnd_eq hfile, l.word_of_blank h]
      simp [h]
    · exact iff_of_true (hread l h files rstart rend hfile) (.inl h)

/-- A name that is read wrong. -/
def splitComm : Comm where
  text := "a) b".toList
  nul := by decide
  newline := by decide

theorem getStackEnd_iff_splitComm : ¬ ∀ l : StatLine, l.comm = splitComm → l.Reads :=
  mt (getStackEnd_iff splitComm).1.mp (not_not.mpr ⟨['a'], [], ['b'], rfl⟩)

/-- The 27th field is the end of the code and not in the stack. -/
theorem stackEnd_of_splitComm :
    let line : StatLine := sleeping splitComm 0x7ffc00001f00
    getStackEnd (fun _ => some line.text) line.pid 0x7ffc00000000 0x7ffc00002000 = 0x7ffc00000000 ∧
      line.stackEnd 0x7ffc00000000 0x7ffc00002000 = 0x7ffc00001f00 := by
  intro line
  refine ⟨?_, by decide⟩
  have hword : line.word = ['0'] := rfl
  rw [line.getStackEnd_eq rfl, hword]
  rfl

end UgTrain
