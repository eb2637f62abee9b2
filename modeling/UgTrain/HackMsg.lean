import UgTrain.FifoParser

/-!
# The messages of libmemhack

What `libmemhack.c` writes into its output FIFO, one line a message, and how the forward parser
reads each line back (`scanMsg_encode`), whatever follows it in the buffer.
-/

namespace UgTrain

open CLib

/-- A message of libmemhack: an allocation (`postprocess_malloc`), a free (`preprocess_free`), the
name of a loaded library (`send_lib_name`), the stack end (`memhack_init`). -/
inductive HackMsg where
  | malloc (memAddr : Ptr) (size : SizeT) (codeAddr : Ptr)
  | free (memAddr : Ptr)
  | lib (libName : Str)
  | stackEnd (stackEnd : Ptr)
  deriving DecidableEq, Repr

/-- The text of a message without its line break. -/
def HackMsg.body : HackMsg → Str
  | .malloc memAddr size codeAddr =>
    'm' :: printHex memAddr ++ ';' :: 's' :: printDec size.toNat ++
      ';' :: 'c' :: printHex codeAddr
  | .free memAddr => 'f' :: printHex memAddr
  | .lib libName => 'l' :: ';' :: libName
  | .stackEnd e => 'S' :: printHex e

/-- The line that is written. -/
def HackMsg.encode (m : HackMsg) : Str := m.body ++ ['\n']

/-- The stream of bytes that the messages make. -/
def encodeAll (ms : List HackMsg) : Str := (ms.map HackMsg.encode).flatten

/-- What libmemhack can write: a library name is a C string without line break, and there is no
stack end 0. -/
def HackMsg.Ok : HackMsg → Prop
  | .lib libName => '\n' ∉ libName ∧ nul ∉ libName
  | .stackEnd e => e ≠ 0
  | _ => True

instance (m : HackMsg) : Decidable m.Ok := by
  cases m <;> unfold HackMsg.Ok <;> infer_instance

/-- Callbacks that write down what they are called with. -/
def eventCb : ParseCb (List HackMsg) where
  mf := some fun _ memAddr memSize _ codeAddr _ a => .ok (a ++ [.malloc memAddr memSize codeAddr])
  ff := some fun memAddr a => .ok (a ++ [.free memAddr])
  lf := some fun libName a => .ok (a ++ [.lib libName])
  sf := some fun stackEnd a => .ok (a ++ [.stackEnd stackEnd])

/-! ## The characters of a message -/

theorem ne_of_mem_printHex {a : Ptr} {c x : Char} (h : c ∈ printHex a) (hx : digitVal 16 x = none)
    (hx' : x ≠ 'x') : c ≠ x := by
  simp only [printHex, List.mem_cons] at h
  rcases h with rfl | rfl | h
  · rintro rfl; exact absurd hx (by decide)
  · exact hx'.symm
  · exact digit_ne (digit_of_mem_toDigits (by decide) (by decide) _ h) hx

theorem ne_of_mem_printDec {n : Nat} {c x : Char} (h : c ∈ printDec n) (hx : digitVal 10 x = none) :
    c ≠ x :=
  digit_ne (digit_of_mem_toDigits (by decide) (by decide) _ h) hx

theorem not_mem_printHex {a : Ptr} {x : Char} (hx : digitVal 16 x = none) (hx' : x ≠ 'x') :
    x ∉ printHex a :=
  fun h => ne_of_mem_printHex h hx hx' rfl

theorem not_mem_printDec {n : Nat} {x : Char} (hx : digitVal 10 x = none) : x ∉ printDec n :=
  fun h => ne_of_mem_printDec h hx rfl

/-- A message is one line without end inside. -/
theorem HackMsg.body_not_mem (m : HackMsg) (h : m.Ok) : '\n' ∉ m.body ∧ nul ∉ m.body := by
  have hx : ∀ a : Ptr, '\n' ∉ printHex a ∧ nul ∉ printHex a := fun a =>
    ⟨not_mem_printHex (by decide) (by decide), not_mem_printHex (by decide) (by decide)⟩
  have hd : ∀ n : Nat, '\n' ∉ printDec n ∧ nul ∉ printDec n := fun n =>
    ⟨not_mem_printDec (by decide), not_mem_printDec (by decide)⟩
  cases m with
  | malloc a s c => simp [body, hx, hd]; decide
  | free a => simp [body, hx]; decide
  | lib name => simp [body, h.1, h.2]; decide
  | stackEnd e => simp [body, hx]; decide

theorem HackMsg.encode_length (m : HackMsg) : m.encode.length = m.body.length + 1 := by
  simp [encode]

@[simp] theorem encodeAll_nil : encodeAll [] = [] := rfl

@[simp] theorem encodeAll_cons (m : HackMsg) (ms : List HackMsg) :
    encodeAll (m :: ms) = m.encode ++ encodeAll ms := by
  simp [encodeAll]

theorem encodeAll_append (ms ms' : List HackMsg) :
    encodeAll (ms ++ ms') = encodeAll ms ++ encodeAll ms' := by
  simp [encodeAll]

/-! ## Scanning -/

section Scan

variable {scan : Str → Option (BitVec 64 × Str)} {buf p u w : Str} {i : Nat} {v : BitVec 64}

theorem scanAt_ok (hb : buf.drop i = u) (hs : scan u = some (v, w)) :
    scanAt scan buf i = .ok v := by
  simp [scanAt, hb, hs]

theorem scanField_off (ch : Char) : scanField false ch scan buf i = .ok (i, 0) := rfl

/-- The field behind the text `p`. -/
theorem scanField_ok {c : Char} (hb : buf.drop i = p ++ ';' :: c :: u) (hp : ';' ∉ p)
    (hn : nul ∉ p) (hc : c ≠ nul) (hs : scan u = some (v, w)) :
    scanField true c scan buf i = .ok (i + p.length + 2, v) ∧
      buf.drop (i + p.length + 2) = u := by
  have hsep : strchr (buf.drop i) ';' = some p.length := by
    rw [hb]; exact strchr_append_cons _ _ hp hn (by decide)
  have h1 : buf.drop (i + p.length + 1) = c :: u := by
    rw [Nat.add_assoc, ← List.drop_drop, hb]; simp
  have h2 : buf.drop (i + p.length + 2) = u := by
    rw [← List.drop_drop (i := 1) (j := i + p.length + 1), h1]; rfl
  refine ⟨?_, h2⟩
  simp only [scanField, ↓reduceIte, hsep, h1, scanChar, hc]
  rw [scanAt_ok h2 hs]; rfl

end Scan

/-- What the callback `mf` is called with for an allocation. -/
theorem scanMalloc_encode (codeOffs memAddr codeAddr : Ptr) (size : SizeT) (t : Str) (msgEnd : Nat) :
    ∃ ppos, scanMalloc .sc codeOffs ((HackMsg.malloc memAddr size codeAddr).encode ++ t) 0 msgEnd =
      .ok (.mf ⟨(HackMsg.malloc memAddr size codeAddr).encode ++ t, ppos, msgEnd⟩ memAddr size
        codeOffs codeAddr 0) := by
  set buf := (HackMsg.malloc memAddr size codeAddr).encode ++ t with hbuf
  have hsz : size.toNat < 2 ^ 64 := size.isLt
  -- The text behind each number.
  let t3 : Str := '\n' :: t
  let t2 : Str := ';' :: 'c' :: (printHex codeAddr ++ t3)
  let t1 : Str := ';' :: 's' :: (printDec size.toNat ++ t2)
  have h1 : buf.drop 1 = printHex memAddr ++ t1 := by
    simp [hbuf, HackMsg.encode, HackMsg.body, t1, t2, t3]
  have s1 := scanPtr_printHex memAddr (t := t1) (noDigit_cons.mpr (by decide)) (by simp [t1])
  have s2 : scanULong 10 (printDec size.toNat ++ t2) = some (size, t2) := by
    rw [scanULong_printDec _ hsz (noDigit_cons.mpr (by decide)) (by simp)]; simp [t2]
  have s3 := scanPtr_printHex codeAddr (t := t3) (noDigit_cons.mpr (by decide)) (by simp [t3])
  obtain ⟨f2, h2⟩ := scanField_ok (c := 's') h1 (not_mem_printHex (by decide) (by decide))
    (not_mem_printHex (by decide) (by decide)) (by decide) s2
  obtain ⟨f3, -⟩ := scanField_ok (c := 'c') h2 (not_mem_printDec (by decide))
    (not_mem_printDec (by decide)) (by decide) s3
  refine ⟨1 + (printHex memAddr).length + 2 + (printDec size.toNat).length + 2, ?_⟩
  simp only [scanMalloc, PMask.sc, Nat.zero_add, scanAt_ok h1 s1, f2, f3, scanField_off, bind,
    Except.bind, pure, Except.pure]

/-- **A message is read back** as the call of its callback, whatever follows it in the buffer. -/
theorem scanMsg_encode (m : HackMsg) (h : m.Ok) (codeOffs : Ptr) (t : Str) (a : List HackMsg) :
    ∃ call, scanMsg eventCb .sc codeOffs (m.encode ++ t) 0 m.body.length = .ok call ∧
      eventCb.call call a = .ok (a ++ [m]) := by
  cases m with
  | malloc memAddr size codeAddr =>
    obtain ⟨ppos, e⟩ := scanMalloc_encode codeOffs memAddr codeAddr size t
      (HackMsg.malloc memAddr size codeAddr).body.length
    exact ⟨_, e, rfl⟩
  | free memAddr =>
    have s := scanPtr_printHex memAddr (t := '\n' :: t) (noDigit_cons.mpr (by decide)) (by simp)
    have hb : ((HackMsg.free memAddr).encode ++ t).drop 1 = printHex memAddr ++ '\n' :: t := by
      simp [HackMsg.encode, HackMsg.body]
    refine ⟨.ff memAddr, ?_, rfl⟩
    show (scanAt scanPtr ((HackMsg.free memAddr).encode ++ t) (0 + 1)).map Call.ff = _
    rw [scanAt_ok hb s]; rfl
  | lib libName =>
    refine ⟨.lf libName, ?_, rfl⟩
    show scanLib ((HackMsg.lib libName).encode ++ t) 0 (HackMsg.lib libName).body.length = _
    simp [scanLib, HackMsg.encode, HackMsg.body]
  | stackEnd e =>
    have s := scanPtr_printHex e (t := '\n' :: t) (noDigit_cons.mpr (by decide)) (by simp)
    have hb : ((HackMsg.stackEnd e).encode ++ t).drop 1 = printHex e ++ '\n' :: t := by
      simp [HackMsg.encode, HackMsg.body]
    refine ⟨.sf e, ?_, rfl⟩
    show scanStackEnd ((HackMsg.stackEnd e).encode ++ t) 0 = _
    have hne : e ≠ 0 := h
    simp only [scanStackEnd, Nat.zero_add, scanAt_ok hb s, bind, Except.bind, pure, Except.pure,
      if_neg hne]

end UgTrain
