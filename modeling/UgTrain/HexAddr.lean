import UgTrain.Literals

/-!
# Hexadecimal addresses

`parse_address` does not look at the last character of a line, takes no digits for 0, and leaves
numbers that are too large to `strtoul`. `hexAddr_iff`: the tokens of these three kinds (`Misread`) are
the only ones that are not read as the format says (`HexRead`).

* `HexAt` is where an address comes to its `0x`: at once, or behind "addr", "stack" and "lib".
* `scanHexAddr_hex`, `scanHexAddr_bad` and `scanHexAddr_last` are the digits of such an address.
-/

namespace CLib

/-! ## Digits with a text behind them -/

section Digits

variable {b n m acc : Nat} {ds t : List Char}

theorem scanDigits_append_noDigit (h : (scanDigits b acc ds).2 = []) (ht : NoDigit b t) :
    scanDigits b acc (ds ++ t) = ((scanDigits b acc ds).1, t) := by
  induction ds generalizing acc with
  | nil => exact scanDigits_noDigit ht
  | cons c ds ih =>
    simp only [List.cons_append, scanDigits] at h ⊢
    split
    · rename_i d hd
      simp only [hd] at h
      exact ih h
    · rename_i hd
      simp [hd] at h

theorem Digits.unique (h : Digits b ds n) (h' : Digits b ds m) : n = m :=
  congrArg Prod.fst (h.2.symm.trans h'.2)

/-- Characters that are all digits are a number. -/
theorem exists_digits (hne : ds ≠ []) (h : ∀ c ∈ ds, (digitVal b c).isSome) :
    ∃ n, Digits b ds n := by
  have hall : ∀ acc, (scanDigits b acc ds).2 = [] := by
    clear hne
    induction ds with
    | nil => exact fun _ => rfl
    | cons c ds ih =>
      intro acc
      obtain ⟨d, hd⟩ := Option.isSome_iff_exists.mp (h c (by simp))
      simp only [scanDigits, hd]
      exact ih (fun c hc => h c (List.mem_cons_of_mem _ hc)) _
  exact ⟨(scanDigits b 0 ds).1, hne, Prod.ext rfl (hall 0)⟩

/-- What is behind the digits is not read. -/
theorem strtoul_digits_append (h : Digits 16 ds n) (ht : NoDigit 16 t) (hx : t.head? ≠ some 'x')
    (hX : t.head? ≠ some 'X') : strtoul 16 (ds ++ t) = toULong false n := by
  have hdig := fun c => h.digit (c := c)
  obtain ⟨hne, hscan⟩ := h
  have hnil : (scanDigits 16 0 ds).2 = [] := by rw [hscan]
  cases ds with
  | nil => exact absurd rfl hne
  | cons c u =>
    have hplain : c = '0' → (u ++ t).head? ≠ some 'x' ∧ (u ++ t).head? ≠ some 'X' := by
      intro _
      cases u with
      | nil => exact ⟨hx, hX⟩
      | cons x u =>
        have hd := hdig x (by simp)
        rw [List.cons_append, List.head?_cons]
        exact ⟨fun heq => digit_ne hd (by decide) (Option.some.inj heq),
          fun heq => digit_ne hd (by decide) (Option.some.inj heq)⟩
    obtain ⟨hsp, hm, hp⟩ := digit_not_space (hdig c (by simp))
    have hdrop : (c :: (u ++ t)).dropWhile isSpace = c :: (u ++ t) :=
      List.dropWhile_cons_of_neg (by simp [hsp])
    have hsign : scanSign (c :: (u ++ t)) = (false, c :: (u ++ t)) :=
      scanSign_noSign (by simp [hm, hp])
    have hbody : scanBody 16 (c :: (u ++ t)) = some (n, t) := by
      rw [scanBody_plain hplain, if_pos (hdig c (by simp)), ← List.cons_append,
        scanDigits_append_noDigit hnil ht, hscan]
    simp only [strtoul, scanNum, List.cons_append, hdrop, hsign, hbody, Option.map_some]

end Digits

end CLib

namespace UgTrain

open CLib

/-- The text up to the next blank. -/
def token (text : Str) : Str := text.takeWhile (· ≠ ' ')

/-- `parse_address` comes to its `0x` at `i`, if it is called at `start`. -/
inductive HexAt (use : AddrUse) (line : Str) : Bool → Nat → Nat → Prop where
  | here {useRefaddr : Bool} {i : Nat} (h : (line.drop i).take 2 = "0x".toList) :
    HexAt use line useRefaddr i i
  | addr {start behind i : Nat} (hname : nameAt line start = .ok ("addr".toList, behind))
    (huse : use = .check) (h : HexAt use line true behind i) : HexAt use line false start i
  | stack {useRefaddr : Bool} {start i : Nat}
    (hname : nameAt line start = .ok ("stack".toList, i)) (huse : use ≠ .plain)
    (h : (line.drop i).take 2 = "0x".toList) : HexAt use line useRefaddr start i
  | lib {useRefaddr : Bool} {start behind i : Nat} {lib : Str}
    (hname : nameAt line start = .ok ("lib".toList, behind)) (huse : use ≠ .plain)
    (hlib : nameAt line behind = .ok (lib, i)) (h : (line.drop i).take 2 = "0x".toList) :
    HexAt use line useRefaddr start i

/-- The text behind `0x` is read as its token says: the value of hexadecimal digits, if it has 64
bits, and otherwise an error. -/
def HexRead (text : Str) (r : Except ReadError Ptr) : Prop :=
  (∃ n, Digits 16 (token text) n ∧ n < 2 ^ 64 ∧ r = .ok (BitVec.ofNat 64 n)) ∨
    (∀ n, Digits 16 (token text) n → 2 ^ 64 ≤ n) ∧ ∃ lidx, r = .error (.parse lidx)

/-- The tokens that are accepted although they are no address. -/
inductive Misread (text : Str) : Prop where
  /-- There are no digits. -/
  | none (h : token text = [])
  /-- The number does not fit. -/
  | large (n : Nat) (h : Digits 16 (token text) n) (hn : 2 ^ 64 ≤ n)
  /-- Only the last character of the line is no digit. -/
  | last (hs : Str) (c : Char) (h : text = hs ++ [c]) (hhs : ∀ x ∈ hs, isXDigit x = true)
    (hc : isXDigit c = false) (hblank : c ≠ ' ')

section Scan

variable {lidx : Nat} {ds hs us rest text : Str} {c : Char}

theorem scanHexAddr_digit (hc : isXDigit c = true) (hrest : rest ≠ []) :
    scanHexAddr lidx ds (c :: rest) = scanHexAddr (lidx + 1) (ds ++ [c]) rest := by
  cases rest with
  | nil => exact absurd rfl hrest
  | cons x rest =>
    rw [scanHexAddr, if_neg (digit_ne_blank hc), if_pos hc]
    exact List.cons_ne_nil x rest

/-- Digits up to a blank or the end of the line; a blank that ends the line is taken along. -/
theorem scanHexAddr_hex (lidx : Nat) (ds : Str) (hhs : ∀ x ∈ hs, isXDigit x = true)
    (hrest : rest.head?.all (· = ' ')) :
    ∃ tail behind, scanHexAddr lidx ds (hs ++ rest) = .ok (ds ++ (hs ++ tail), behind) ∧
      tail.head?.all (· = ' ') := by
  induction hs generalizing lidx ds with
  | nil =>
    cases rest with
    | nil => exact ⟨[], lidx, by simp [scanHexAddr], rfl⟩
    | cons c rest =>
      obtain rfl : c = ' ' := by simpa using hrest
      cases rest with
      | nil => exact ⟨[' '], lidx, rfl, rfl⟩
      | cons x rest => exact ⟨[], lidx, by simp [scanHexAddr], rfl⟩
  | cons c hs ih =>
    have hc := hhs c (by simp)
    by_cases hend : hs ++ rest = []
    · obtain ⟨rfl, rfl⟩ := List.append_eq_nil_iff.mp hend
      exact ⟨[], lidx, rfl, rfl⟩
    · obtain ⟨tail, behind, hscan, htail⟩ :=
        ih (lidx + 1) (ds ++ [c]) fun x hx => hhs x (List.mem_cons_of_mem _ hx)
      refine ⟨tail, behind, ?_, htail⟩
      rw [List.cons_append, scanHexAddr_digit hc hend, hscan]
      simp

theorem scanHexAddr_bad (lidx : Nat) (ds : Str) (hhs : ∀ x ∈ hs, isXDigit x = true)
    (hc : isXDigit c = false)
    (hblank : c ≠ ' ') (hrest : rest ≠ []) :
    scanHexAddr lidx ds (hs ++ c :: rest) = .error (.parse (lidx + hs.length)) := by
  induction hs generalizing lidx ds with
  | nil =>
    cases rest with
    | nil => exact absurd rfl hrest
    | cons x rest =>
      rw [List.nil_append, scanHexAddr, if_neg hblank, if_neg (by simp [hc])]
      · rfl
      · exact List.cons_ne_nil x rest
  | cons x hs ih =>
    rw [List.cons_append, scanHexAddr_digit (hhs x (by simp)) (by simp),
      ih _ _ fun y hy => hhs y (List.mem_cons_of_mem _ hy), List.length_cons]
    congr 2
    omega

theorem scanHexAddr_last (lidx : Nat) (ds : Str) (hhs : ∀ x ∈ hs, isXDigit x = true) :
    ∃ behind, scanHexAddr lidx ds (hs ++ [c]) = .ok (ds ++ (hs ++ [c]), behind) := by
  induction hs generalizing lidx ds with
  | nil => exact ⟨lidx, rfl⟩
  | cons x hs ih =>
    obtain ⟨behind, hscan⟩ :=
      ih (lidx + 1) (ds ++ [x]) fun y hy => hhs y (List.mem_cons_of_mem _ hy)
    refine ⟨behind, ?_⟩
    rw [List.cons_append, scanHexAddr_digit (hhs x (by simp)) (by simp), hscan]
    simp

theorem token_cons (hc : c ≠ ' ') : token (c :: text) = c :: token text :=
  List.takeWhile_cons_of_pos (by simpa using hc)

/-- The first character that is no digit. -/
theorem token_split (text : Str) : (∀ x ∈ token text, isXDigit x = true) ∨
    ∃ hs c rest, text = hs ++ c :: rest ∧ (∀ x ∈ hs, isXDigit x = true) ∧ isXDigit c = false ∧
      c ≠ ' ' := by
  induction text with
  | nil => exact .inl (by simp [token])
  | cons x text ih =>
    by_cases hblank : x = ' '
    · exact .inl (by simp [token, hblank])
    rw [token_cons hblank]
    by_cases hx : isXDigit x = true
    · rcases ih with hall | ⟨hs, c, rest, rfl, hhs, hc, hcb⟩
      · exact .inl (by simpa [hx] using hall)
      · exact .inr ⟨x :: hs, c, rest, rfl, by simpa [hx] using hhs, hc, hcb⟩
    · exact .inr ⟨[], x, text, rfl, by simp, by simpa using hx, hblank⟩

theorem mem_token (hhs : ∀ x ∈ hs, isXDigit x = true) (hblank : c ≠ ' ') :
    c ∈ token (hs ++ c :: rest) := by
  induction hs with
  | nil =>
    rw [List.nil_append, token_cons hblank]
    exact List.mem_cons_self
  | cons x hs ih =>
    rw [List.cons_append, token_cons (digit_ne_blank (hhs x (by simp)))]
    exact List.mem_cons_of_mem _ (ih fun y hy => hhs y (List.mem_cons_of_mem _ hy))

theorem token_append (text : Str) :
    ∃ rest, text = token text ++ rest ∧ rest.head?.all (· = ' ') := by
  refine ⟨text.dropWhile (· ≠ ' '), List.takeWhile_append_dropWhile.symm, ?_⟩
  induction text with
  | nil => rfl
  | cons c text ih =>
    by_cases hc : c = ' '
    · simp [hc]
    · rw [List.dropWhile_cons_of_pos (by simpa using hc)]
      exact ih

end Scan

/-! ## The result -/

section Result

variable {opt : Options} {use : AddrUse} {useRefaddr : Bool} {line text name : Str}
  {start i behind n : Nat} {again : Nat → Except ReadError LineAddr}

/-- The number of a token. -/
theorem parseHexAddr_digits (h : Digits 16 (token (line.drop start)) n) :
    ∃ behind, parseHexAddr line start = .ok (toULong false n, behind) := by
  obtain ⟨rest, hsplit, hrest⟩ := token_append (line.drop start)
  obtain ⟨tail, behind, hscan, htail⟩ :=
    scanHexAddr_hex start [] (fun x hx => h.digit hx) hrest
  have hno : NoDigit 16 tail ∧ tail.head? ≠ some 'x' ∧ tail.head? ≠ some 'X' := by
    cases tail with
    | nil => simp [NoDigit]
    | cons c tail =>
      obtain rfl : c = ' ' := by simpa using htail
      exact ⟨noDigit_cons.mpr (by decide), by simp, by simp⟩
  refine ⟨behind + 1, ?_⟩
  unfold parseHexAddr
  rw [hsplit, hscan]
  simp only [List.nil_append, Run.ok_bind]
  rw [strtoul_digits_append h hno.1 hno.2.1 hno.2.2]
  rfl

theorem parseHexAddr_iff : HexRead (line.drop start) ((parseHexAddr line start).map (·.1)) ↔
    ¬ Misread (line.drop start) := by
  rcases token_split (line.drop start) with hall | ⟨hs, c, rest, hsplit, hhs, hc, hblank⟩
  · by_cases hnil : token (line.drop start) = []
    · -- without digits the number is 0
      refine iff_of_false ?_ (not_not.mpr (.none hnil))
      have hrest := token_append (line.drop start)
      rw [hnil] at hrest
      obtain ⟨rest, hsplit, hrest⟩ := hrest
      obtain ⟨tail, behind, hscan, -⟩ :=
        scanHexAddr_hex start [] (show ∀ x ∈ ([] : Str), isXDigit x = true by simp) hrest
      unfold parseHexAddr
      rw [hsplit, hscan]
      rintro (⟨n, hn, -⟩ | ⟨-, lidx, herr⟩)
      · rw [← hsplit, hnil] at hn
        exact hn.1 rfl
      · cases herr
    · obtain ⟨n, hn⟩ := exists_digits hnil hall
      obtain ⟨behind, hparse⟩ := parseHexAddr_digits hn
      rw [hparse]
      by_cases hfits : n < 2 ^ 64
      · refine iff_of_true (.inl ⟨n, hn, hfits, ?_⟩) ?_
        · rw [← toULong_false hfits]
          rfl
        · rintro (hnil' | ⟨m, hm, hle⟩ | ⟨hs, c, hsplit, hhs, hc, hblank⟩)
          · exact hnil hnil'
          · exact absurd (hm.unique hn) (by omega)
          · have hlast : c ∈ token (line.drop start) := by
              rw [hsplit]
              exact mem_token hhs hblank
            rw [hall c hlast] at hc
            cases hc
      · refine iff_of_false ?_ (not_not.mpr (.large n hn (by omega)))
        rintro (⟨m, hm, hlt, -⟩ | ⟨-, lidx, herr⟩)
        · exact hfits (hn.unique hm ▸ hlt)
        · cases herr
  · have hmem : c ∈ token (line.drop start) := by
      rw [hsplit]
      exact mem_token hhs hblank
    have hno : ∀ n, ¬ Digits 16 (token (line.drop start)) n := by
      intro n hn
      have hdig : isXDigit c = true := hn.digit hmem
      rw [hc] at hdig
      cases hdig
    by_cases hrest : rest = []
    · -- the last character of the line
      subst hrest
      refine iff_of_false ?_ (not_not.mpr (.last hs c hsplit hhs hc hblank))
      obtain ⟨behind, hscan⟩ := scanHexAddr_last start [] (c := c) hhs
      rw [← hsplit] at hscan
      unfold parseHexAddr
      rw [hscan]
      rintro (⟨n, hn, -⟩ | ⟨-, lidx, herr⟩)
      · exact hno n hn
      · cases herr
    · have hscan := scanHexAddr_bad start [] hhs hc hblank hrest
      rw [← hsplit] at hscan
      refine iff_of_true (.inr ⟨fun n hn => (hno n hn).elim, start + hs.length, ?_⟩) ?_
      · unfold parseHexAddr
        rw [hscan]
        rfl
      · rintro (hnil | ⟨n, hn, -⟩ | ⟨hs', c', hlast, hhs', -, -⟩)
        · rw [hnil] at hmem
          cases hmem
        · exact hno n hn
        · -- `c` is not the last character, so that it is among the digits in front of it
          have hmem' : c ∈ hs' := by
            have hdrop : (hs ++ c :: rest).dropLast = hs' := by
              rw [← hsplit, hlast, List.dropLast_concat]
            rw [← hdrop, List.dropLast_append_of_ne_nil (List.cons_ne_nil c rest),
              List.dropLast_cons_of_ne_nil hrest]
            simp
          rw [hhs' c hmem'] at hc
          cases hc

/-- A name that is read stands in the line. -/
theorem prefix_nameAt (h : nameAt line start = .ok (name, behind)) : name <+: line.drop start := by
  unfold nameAt firstName at h
  split at h
  · cases h
  · split at h
    · cases h
    · cases h
      exact List.take_prefix _ _

theorem nameAt_length (h : nameAt line start = .ok (name, behind)) :
    start + name.length ≤ line.length ∨ name = [] := by
  have hlen := (prefix_nameAt h).length_le
  rw [List.length_drop] at hlen
  by_cases hname : name = []
  · exact .inr hname
  · have hpos := List.length_pos_of_ne_nil hname
    omega

theorem hex_length (h : (line.drop start).take 2 = "0x".toList) : ¬ line.length < start + 2 := by
  have hlen := congrArg List.length h
  rw [List.length_take, List.length_drop] at hlen
  have : ("0x".toList).length = 2 := rfl
  omega

/-- A keyword is not taken for a hexadecimal address. -/
theorem nameAt_not_hex (h : nameAt line start = .ok (name, behind)) (hlen : 2 ≤ name.length)
    (hname : name.take 2 ≠ "0x".toList) :
    ¬ line.length < start + 2 ∧ (line.drop start).take 2 ≠ "0x".toList := by
  obtain ⟨rest, hrest⟩ := prefix_nameAt h
  constructor
  · have := nameAt_length h
    rcases this with hle | rfl
    · omega
    · simp at hlen
  · rw [← hrest, List.take_append_of_le_length hlen]
    exact hname

theorem parsePlainAddr_hex (h : (line.drop start).take 2 = "0x".toList) :
    parsePlainAddr line start = parseHexAddr line (start + 2) := by
  unfold parsePlainAddr
  rw [if_neg (hex_length h), if_pos h]

/-- A round that comes to `0x` reads the digits behind it. -/
theorem addrRound_hex (h : HexAt use line useRefaddr start i)
    (hagain : ∀ behind, useRefaddr = false → HexAt use line true behind i →
      (again behind).map (·.addr) = (parseHexAddr line (i + 2)).map (·.1)) :
    (addrRound opt use useRefaddr line start again).map (·.addr) =
      (parseHexAddr line (i + 2)).map (·.1) := by
  unfold addrRound
  cases h with
  | here h =>
    rw [if_neg (hex_length h), if_pos h]
    cases parseHexAddr line (start + 2) <;> rfl
  | addr hname huse h =>
    obtain ⟨hlen, hnot⟩ := nameAt_not_hex hname (by decide) (by decide)
    rw [if_neg hlen, if_neg hnot, hname]
    simp only [Run.ok_bind]
    rw [if_pos trivial, if_neg (by simp [huse])]
    exact hagain _ rfl h
  | stack hname huse h =>
    obtain ⟨hlen, hnot⟩ := nameAt_not_hex hname (by decide) (by decide)
    rw [if_neg hlen, if_neg hnot, hname]
    simp only [Run.ok_bind]
    rw [if_neg (by decide), if_pos trivial, if_neg huse, parsePlainAddr_hex h]
    cases parseHexAddr line (i + 2) <;> rfl
  | lib hname huse hlib h =>
    obtain ⟨hlen, hnot⟩ := nameAt_not_hex hname (by decide) (by decide)
    rw [if_neg hlen, if_neg hnot, hname]
    simp only [Run.ok_bind]
    rw [if_neg (by decide), if_neg (by decide), if_pos trivial, if_neg huse, hlib]
    simp only [Run.ok_bind]
    rw [parsePlainAddr_hex h]
    cases parseHexAddr line (i + 2) <;> rfl

theorem parseAddress_hex (h : HexAt use line false start i) :
    (parseAddress opt use line start).map (·.addr) = (parseHexAddr line (i + 2)).map (·.1) := by
  refine addrRound_hex h fun behind _ h => addrRound_hex h fun _ hfalse => ?_
  cases hfalse

end Result

/-- **Hexadecimal addresses are read as their token says**, apart from the tokens of `Misread`. -/
theorem hexAddr_iff (opt : Options) (use : AddrUse) (line : Str) (start i : Nat)
    (h : HexAt use line false start i) :
    HexRead (line.drop (i + 2)) ((parseAddress opt use line start).map (·.addr)) ↔
      ¬ Misread (line.drop (i + 2)) := by
  rw [parseAddress_hex h]
  exact parseHexAddr_iff

/-- A check with the address of a library. -/
def libCheck : Str := "lib libgame.so 0x1f u32 l 5".toList

theorem libCheck_hexAt : HexAt .check libCheck false 0 15 :=
  .lib (show nameAt libCheck 0 = .ok ("lib".toList, 4) from rfl) (by decide)
    (show nameAt libCheck 4 = .ok ("libgame.so".toList, 15) from rfl) (by decide)

theorem hexAddr_example :
    HexRead "1f u32 l 5".toList ((parseAddress CfgReader.init.opt .check libCheck 0).map (·.addr)) :=
  (hexAddr_iff CfgReader.init.opt .check libCheck 0 15 libCheck_hexAt).mpr fun h => by
    rcases h with hnil | ⟨n, hn, hle⟩ | ⟨hs, c, hlast, -, hc, -⟩
    · exact absurd hnil (by decide)
    · have h31 : Digits 16 (token (libCheck.drop 17)) 31 := by decide
      exact absurd (hn.unique h31) (by omega)
    · have hget := congrArg List.getLast? hlast
      rw [List.getLast?_concat] at hget
      have hget : some '5' = some c := hget
      cases hget
      exact absurd hc (by decide)

/-- The stack offset of a class ends with a character that is no digit. -/
def slipLine : Str := "dynmemstart Obj 28 0x4006a0 0x1g".toList

theorem hexAddr_not : ¬ ∀ (opt : Options) (use : AddrUse) (line : Str) (start i : Nat),
    HexAt use line false start i →
    HexRead (line.drop (i + 2)) ((parseAddress opt use line start).map (·.addr)) := by
  intro hall
  have hread := hall CfgReader.init.opt .plain slipLine 28 28 (.here (by decide))
  rw [parseAddress_hex (.here (by decide))] at hread
  have hval : (parseHexAddr slipLine 30).map (·.1) = .ok 1 := by rfl
  have hread : HexRead "1g".toList ((parseHexAddr slipLine 30).map (·.1)) := hread
  rw [hval] at hread
  rcases hread with ⟨n, hn, -⟩ | ⟨-, lidx, herr⟩
  · have hg : (digitVal 16 'g').isSome := hn.digit (by decide)
    exact absurd hg (by decide)
  · cases herr

end UgTrain
