import UgTrain.Pointwise
import UgTrain.ReadConfig
import UgTrain.Run

/-!
# Key bindings of a value line

Behind its wish value, a value has keys and an activation state (`Bindings`). `scanKeys` takes a key
only together with the separator behind it (`Taken`): what stands at the end of the line, or what
follows the activation state, is never looked at. `keyBindings_iff` says which lines are read right.
-/

namespace UgTrain

open CLib

/-- Keys with a comma behind each. -/
def commaKeys (keys : List Char) : Str := keys.flatMap fun k => [k, ',']

/-- Keys separated by commas, a blank, and an activation state. -/
structure Bindings (text : Str) (keys : List Char) (state : Char) : Prop where
  keys_ne : keys ≠ []
  alnum : ∀ k ∈ keys, k.isAlphanum
  state_mem : state ∈ ['a', 'd', 'w']
  text : text = keys.intersperse ',' ++ [' ', state]

/-- What the loop of `parse_key_bindings` goes through: keys with a comma behind each and letters or
digits up to the end of the line, or keys up to a blank; `rest` is where it ends. -/
inductive Taken (text : Str) (rest : Str) : List Char → Prop where
  | line (keys : List Char) (hkeys : ∀ k ∈ keys, k.isAlphanum) (hrest : ∀ c ∈ rest, c.isAlphanum)
      (htext : text = commaKeys keys ++ rest) : Taken text rest keys
  | blank (keys : List Char) (k : Char) (hkeys : ∀ k' ∈ keys ++ [k], k'.isAlphanum)
      (htext : text = commaKeys keys ++ k :: ' ' :: rest) : Taken text rest (keys ++ [k])

/-! ## The loop -/

section Scan

variable {line text rest seg : Str} {start lidx : Nat} {keys keys₀ : List Char} {c k : Char}

theorem isAlphanum_ne (h : c.isAlphanum) : c ≠ ',' ∧ c ≠ ' ' := by
  constructor <;> (rintro rfl; exact absurd h (by decide))

/-- Letters and digits are passed over. -/
theorem scanKeys_alnum (h : ∀ c ∈ seg, c.isAlphanum) :
    scanKeys line start lidx keys (seg ++ rest) =
      scanKeys line start (lidx + seg.length) keys rest := by
  induction seg generalizing lidx with
  | nil => rfl
  | cons c seg ih =>
    have hc := h c (by simp)
    obtain ⟨hcomma, hblank⟩ := isAlphanum_ne hc
    rw [List.cons_append, scanKeys, if_neg (by simp [hcomma, hblank]), if_pos hc,
      ih fun c hc => h c (List.mem_cons_of_mem _ hc), List.length_cons]
    congr 1
    omega

theorem scanKeys_end (h : ∀ c ∈ seg, c.isAlphanum) :
    scanKeys line start lidx keys seg = .ok (keys, start) := by
  have hseg : scanKeys line start lidx keys (seg ++ []) =
      scanKeys line start (lidx + seg.length) keys [] := scanKeys_alnum h
  rwa [List.append_nil] at hseg

/-- A key with a comma behind it. -/
theorem scanKeys_comma (hdrop : line.drop start = k :: ',' :: rest) (hk : k.isAlphanum) :
    scanKeys line start start keys (k :: ',' :: rest) =
      scanKeys line (start + 2) (start + 2) (keys ++ [k]) rest := by
  have h : scanKeys line start start keys ([k] ++ ',' :: rest) =
      scanKeys line start (start + 1) keys (',' :: rest) := scanKeys_alnum (by simpa using hk)
  rw [List.singleton_append] at h
  rw [h, scanKeys, if_pos (.inl rfl), if_pos rfl, hdrop]
  rfl

/-- A key with a blank behind it. -/
theorem scanKeys_blank (hdrop : line.drop start = k :: ' ' :: rest) (hk : k.isAlphanum) :
    scanKeys line start start keys (k :: ' ' :: rest) = .ok (keys ++ [k], start + 2) := by
  have h : scanKeys line start start keys ([k] ++ ' ' :: rest) =
      scanKeys line start (start + 1) keys (' ' :: rest) := scanKeys_alnum (by simpa using hk)
  rw [List.singleton_append] at h
  rw [h, scanKeys, if_pos (.inr rfl), if_pos rfl, hdrop]
  rfl

/-- Something else than a single character in front of a separator, or another character. -/
theorem scanKeys_bad (h : ∀ c ∈ seg, c.isAlphanum) (hc : c.isAlphanum = false)
    (hbad : (c = ',' ∨ c = ' ') → seg.length ≠ 1) :
    ∃ lidx, scanKeys line start start keys (seg ++ c :: rest) = .error (.parse lidx) := by
  rw [scanKeys_alnum h, scanKeys]
  by_cases hsep : c = ',' ∨ c = ' '
  · have hlen := hbad hsep
    rw [if_pos hsep, if_neg (by omega)]
    exact ⟨_, rfl⟩
  · rw [if_neg hsep, hc, if_neg Bool.noConfusion]
    exact ⟨_, rfl⟩

theorem scanKeys_commaKeys (hdrop : line.drop start = commaKeys keys ++ rest)
    (hk : ∀ k ∈ keys, k.isAlphanum) :
    scanKeys line start start keys₀ (commaKeys keys ++ rest) =
      scanKeys line (start + 2 * keys.length) (start + 2 * keys.length) (keys₀ ++ keys) rest := by
  induction keys generalizing start keys₀ with
  | nil => simp [commaKeys]
  | cons k keys ih =>
    have htext : commaKeys (k :: keys) ++ rest = k :: ',' :: (commaKeys keys ++ rest) := rfl
    rw [htext] at hdrop ⊢
    have hdrop' : line.drop (start + 2) = commaKeys keys ++ rest := by
      rw [← List.drop_drop, hdrop]
      rfl
    rw [scanKeys_comma hdrop (hk k (by simp)), ih hdrop' fun k hk' => hk k (List.mem_cons_of_mem _ hk'),
      List.append_assoc, List.singleton_append, List.length_cons]
    congr 1 <;> omega

theorem drop_commaKeys (hdrop : line.drop start = commaKeys keys ++ rest) :
    line.drop (start + 2 * keys.length) = rest := by
  have hlen : (commaKeys keys).length = 2 * keys.length := by
    simp [commaKeys, List.length_flatMap, Nat.mul_comm]
  rw [← List.drop_drop, hdrop, ← hlen, List.drop_left]

/-- What the loop gives. -/
theorem parseKeyBindings_taken (h : Taken (line.drop start) rest keys) :
    parseKeyBindings line start = .ok (keys, start + 2 * keys.length) ∧
      line.drop (start + 2 * keys.length) = rest := by
  unfold parseKeyBindings
  cases h with
  | line keys hkeys hrest htext =>
    rw [htext, scanKeys_commaKeys htext hkeys, scanKeys_end hrest, List.nil_append]
    exact ⟨rfl, drop_commaKeys htext⟩
  | blank ks k hkeys htext =>
    have hdrop := drop_commaKeys htext
    rw [htext, scanKeys_commaKeys htext fun k' hk' => hkeys k' (List.mem_append_left _ hk'),
      scanKeys_blank hdrop (hkeys k (by simp)), List.nil_append, List.length_append,
      List.length_singleton]
    refine ⟨rfl, ?_⟩
    rw [Nat.mul_add, ← Nat.add_assoc, ← List.drop_drop, hdrop]
    rfl

/-- A key and its comma in front. -/
theorem Taken.cons (h : Taken text rest keys) (hk : k.isAlphanum) :
    Taken (k :: ',' :: text) rest (k :: keys) := by
  cases h with
  | line keys hkeys hrest htext =>
    exact .line _ (List.forall_mem_cons.mpr ⟨hk, hkeys⟩) hrest (by rw [htext]; rfl)
  | blank ks k' hkeys htext =>
    exact .blank (k :: ks) k' (List.forall_mem_cons.mpr ⟨hk, hkeys⟩) (by rw [htext]; rfl)

/-- Letters and digits, and what is behind them. -/
theorem exists_alnum (text : Str) : ∃ seg rest, text = seg ++ rest ∧ (∀ c ∈ seg, c.isAlphanum) ∧
    ∀ c ∈ rest.head?, c.isAlphanum = false := by
  refine ⟨text.takeWhile Char.isAlphanum, text.dropWhile Char.isAlphanum,
    List.takeWhile_append_dropWhile.symm, fun c hc => List.mem_takeWhile_imp hc, fun c hc => ?_⟩
  cases htext : text.dropWhile Char.isAlphanum with
  | nil => simp [htext] at hc
  | cons x rest =>
    rw [htext] at hc
    obtain rfl : x = c := by simpa using hc
    have := List.dropWhile_get_zero_not Char.isAlphanum text (by rw [htext]; simp)
    simpa [htext] using this

/-- All other texts are an error. -/
theorem scanKeys_not_taken (n : Nat) (hn : text.length ≤ n) (hdrop : line.drop start = text)
    (h : ∀ rest keys, ¬ Taken text rest keys) :
    ∃ lidx, scanKeys line start start keys₀ text = .error (.parse lidx) := by
  induction n generalizing text start keys₀ with
  | zero =>
    obtain rfl : text = [] := List.eq_nil_of_length_eq_zero (by omega)
    exact absurd (.line [] (by simp) (by simp) rfl) (h [] [])
  | succ n ih =>
    obtain ⟨seg, rest, rfl, hseg, hrest⟩ := exists_alnum text
    cases rest with
    | nil => exact absurd (.line [] (by simp) hseg (by simp [commaKeys])) (h seg [])
    | cons c rest =>
      by_cases hone : (c = ',' ∨ c = ' ') ∧ seg.length = 1
      · obtain ⟨hsep, hlen⟩ := hone
        obtain ⟨k, rfl⟩ := List.length_eq_one_iff.mp hlen
        have hk := hseg k (by simp)
        rcases hsep with rfl | rfl
        · -- the loop goes on behind the comma
          rw [List.singleton_append] at hdrop hn h ⊢
          rw [scanKeys_comma hdrop hk]
          refine ih (by simp only [List.length_cons] at hn; omega) ?_ fun rest' keys' ht =>
            h rest' _ (ht.cons hk)
          rw [← List.drop_drop, hdrop]
          rfl
        · exact absurd (.blank [] k (by simpa using hk) rfl) (h rest _)
      · exact scanKeys_bad hseg (hrest c rfl) fun hsep hlen => hone ⟨hsep, hlen⟩

end Scan

/-! ## The line of a value -/

namespace CfgReader

/-- The lists that an activated entry goes to: that of the open pointer section, or the list of all
and that of the open class. -/
def ownLists (s : CfgReader) : List (List Nat) :=
  match s.inPtrmem with
  | some p => (s.opt.ptrmems[p]?.toList).map (·.cfgAct)
  | none => s.cfgAct :: ((s.inDynmem.bind (s.opt.dynmems[·]?)).toList).map (·.cfgAct)

/-- The open class and the open section are there. -/
structure Open (s : CfgReader) : Prop where
  dynmem : ∀ d ∈ s.inDynmem, d < s.opt.dynmems.length
  ptrmem : ∀ p ∈ s.inPtrmem, p < s.opt.ptrmems.length

/-- The line gives what is written in `text`, behind its wish value: the keys are bound to the entry
`e`, and it is activated for `a` and `w`. Any other text is a parse error. -/
def KeysRead (s : CfgReader) (e : Nat) (text : Str) : Except ReadError CfgReader → Prop
  | .ok s' => ∃ keys state, Bindings text keys state ∧
      (∀ ch, s'.cfgpMap ch = s.cfgpMap ch ++ List.replicate ((keys.map Char.toNat).count ch) e) ∧
      s'.ownLists = s.ownLists.map (· ++ if state = 'd' then [] else [e])
  | .error err => (∃ lidx, err = .parse lidx) ∧ ∀ keys state, ¬ Bindings text keys state

section Keys

variable {fl : FloatLib} {s s' : CfgReader} {e start : Nat} {en : CfgEntry} {keys : List Char}
  {state : Char} {line name text rest : Str}

theorem bindKeys_cfgpMap (ch : Nat) : (keys.foldl (bindKey e) s).cfgpMap ch =
    s.cfgpMap ch ++ List.replicate ((keys.map Char.toNat).count ch) e := by
  induction keys generalizing s with
  | nil => simp
  | cons k keys ih =>
    rw [List.foldl_cons, ih, List.map_cons, List.count_cons]
    by_cases hk : k.toNat = ch
    · subst hk
      simp [bindKey, List.replicate_succ, List.append_assoc]
    · simp [bindKey, Function.update_of_ne (Ne.symm hk), hk]

/-- Keys leave all else as it is. -/
theorem bindKeys_else : ∃ f, keys.foldl (bindKey e) s = { s with cfgpMap := f } := by
  induction keys generalizing s with
  | nil => exact ⟨s.cfgpMap, rfl⟩
  | cons k keys ih =>
    obtain ⟨f, hf⟩ := ih (s := s.bindKey e k)
    exact ⟨f, hf⟩

theorem ownLists_activate (h : s.Open) :
    (s.activate e).ownLists = s.ownLists.map (· ++ [e]) := by
  unfold activate ownLists
  cases hp : s.inPtrmem with
  | some p =>
    obtain ⟨pm, hpm⟩ : ∃ pm, s.opt.ptrmems[p]? = some pm :=
      ⟨_, List.getElem?_eq_getElem (h.ptrmem p hp)⟩
    simp [hpm]
  | none =>
    cases hd : s.inDynmem with
    | none => simp
    | some d =>
      obtain ⟨dm, hdm⟩ : ∃ dm, s.opt.dynmems[d]? = some dm :=
        ⟨_, List.getElem?_eq_getElem (h.dynmem d hd)⟩
      simp [hdm]

@[simp] theorem activate_cfgpMap : (s.activate e).cfgpMap = s.cfgpMap := by
  unfold activate
  split <;> rfl

theorem activate_entries : (s.activate e).opt.entries = s.opt.entries := by
  unfold activate
  split <;> rfl

@[simp] theorem activate_inDynmem : (s.activate e).inDynmem = s.inDynmem := by
  unfold activate
  split <;> rfl

/-- What the parts of a line in front of the keys leave as it is. -/
structure SameLists (s s' : CfgReader) : Prop where
  cfgpMap : s'.cfgpMap = s.cfgpMap
  cfgAct : s'.cfgAct = s.cfgAct
  inDynmem : s'.inDynmem = s.inDynmem
  inPtrmem : s'.inPtrmem = s.inPtrmem
  dynmems : s'.opt.dynmems = s.opt.dynmems
  ptrmems : s'.opt.ptrmems.map (·.cfgAct) = s.opt.ptrmems.map (·.cfgAct)

theorem SameLists.trans {s'' : CfgReader} (h : s.SameLists s') (h' : s'.SameLists s'') :
    s.SameLists s'' :=
  ⟨h'.cfgpMap.trans h.cfgpMap, h'.cfgAct.trans h.cfgAct, h'.inDynmem.trans h.inDynmem,
    h'.inPtrmem.trans h.inPtrmem, h'.dynmems.trans h.dynmems, h'.ptrmems.trans h.ptrmems⟩

theorem SameLists.ownLists (h : s.SameLists s') : s'.ownLists = s.ownLists := by
  unfold CfgReader.ownLists
  rw [h.inPtrmem, h.inDynmem, h.cfgAct, h.dynmems]
  cases s.inPtrmem with
  | none => rfl
  | some p =>
    have hget : (s'.opt.ptrmems[p]?).map (·.cfgAct) = (s.opt.ptrmems[p]?).map (·.cfgAct) := by
      rw [← List.getElem?_map, ← List.getElem?_map, h.ptrmems]
    simpa only [Option.toList_map] using congrArg Option.toList hget

theorem SameLists.opens (h : s.SameLists s') (ho : s.Open) : s'.Open := by
  have hlen : s'.opt.ptrmems.length = s.opt.ptrmems.length := by
    simpa using congrArg List.length h.ptrmems
  exact ⟨fun d hd => h.dynmems ▸ ho.dynmem d (h.inDynmem ▸ hd),
    fun p hp => hlen ▸ ho.ptrmem p (h.inPtrmem ▸ hp)⟩

theorem setRegion_sameLists {a : LineAddr} {type : VType} (h : s.setRegion a = .ok (s', type)) :
    s.SameLists s' ∧ s'.opt.entries = s.opt.entries := by
  unfold setRegion at h
  split at h
  · split at h
    · cases h
    · cases h
      exact ⟨⟨rfl, rfl, rfl, rfl, rfl, rfl⟩, rfl⟩
  · split at h
    · cases h
      exact ⟨⟨rfl, rfl, rfl, rfl, rfl, rfl⟩, rfl⟩
    · split at h
      · cases h
      · cases h
        exact ⟨⟨rfl, rfl, rfl, rfl, rfl, rfl⟩, rfl⟩

theorem setTarget_sameLists {type type' : VType} {ptrtgt : Option Nat} {behind : Nat}
    (h : s.setTarget type line start = .ok (s', type', ptrtgt, behind)) :
    s.SameLists s' ∧ s'.opt.entries = s.opt.entries := by
  unfold setTarget at h
  split at h
  · cases h
    exact ⟨⟨rfl, rfl, rfl, rfl, rfl, rfl⟩, rfl⟩
  · split at h
    · cases h
      exact ⟨⟨rfl, rfl, rfl, rfl, rfl, rfl⟩, rfl⟩
    · obtain ⟨⟨name, behind'⟩, -, h⟩ := Run.bind_eq_ok.mp h
      split at h
      split at h
      · cases h
      · cases h
        refine ⟨⟨rfl, rfl, rfl, rfl, rfl, Pointwise.map_modify_eq (fun pm => ?_) _ _⟩, rfl⟩
        cases s.inDynmem <;> rfl

theorem pushEntry_sameLists : s.SameLists (s.pushEntry en) := by
  refine ⟨rfl, rfl, rfl, rfl, rfl, ?_⟩
  unfold pushEntry
  cases s.inPtrmem with
  | none => rfl
  | some p =>
    refine Pointwise.map_modify_eq ?_ _ p
    exact fun _ => rfl

theorem parseEntry_sameLists {behind : Nat}
    (h : parseEntry fl s name line start = .ok (s', en, behind)) :
    s.SameLists s' ∧ s'.opt.entries = s.opt.entries := by
  obtain ⟨a, -, h⟩ := Run.bind_eq_ok.mp h
  obtain ⟨⟨s₁, type⟩, hregion, h⟩ := Run.bind_eq_ok.mp h
  obtain ⟨⟨type₂, start₂⟩, -, h⟩ := Run.bind_eq_ok.mp h
  obtain ⟨⟨s₂, type₃, ptrtgt, start₃⟩, htarget, h⟩ := Run.bind_eq_ok.mp h
  obtain ⟨v, -, h⟩ := Run.bind_eq_ok.mp h
  obtain ⟨hregion, hen⟩ := setRegion_sameLists hregion
  obtain ⟨htarget, hen'⟩ := setTarget_sameLists htarget
  have hs' : s₂ = s' := by
    split at h
    split at h
    · cases h
    · exact congrArg Prod.fst (Except.ok.inj h)
  exact hs' ▸ ⟨hregion.trans htarget, hen'.trans hen⟩

end Keys

/-! ## Which lines are read right -/

section Line

variable {fl : FloatLib} {s s' : CfgReader} {e start : Nat} {en : CfgEntry} {keys : List Char}
  {state : Char} {line name text rest : Str}

theorem intersperse_concat (ks : List Char) (k : Char) :
    (ks ++ [k]).intersperse ',' = commaKeys ks ++ [k] := by
  induction ks with
  | nil => rfl
  | cons k' ks ih =>
    obtain ⟨x, l, hl⟩ := List.exists_cons_of_ne_nil (List.concat_ne_nil k ks)
    rw [List.cons_append, hl, List.intersperse_cons_cons, ← hl, ih]
    rfl

/-- A text as it should be is gone through up to the state. -/
theorem bindings_taken (h : Bindings text keys state) : Taken text [state] keys := by
  obtain ⟨ks, k, hkeys⟩ := (List.eq_nil_or_concat keys).resolve_left h.keys_ne
  rw [List.concat_eq_append] at hkeys
  subst hkeys
  refine .blank ks k h.alnum ?_
  rw [h.text, intersperse_concat, List.append_assoc]
  rfl

theorem taken_length (h : Taken text rest keys) : 2 * keys.length ≤ text.length := by
  have hlen : ∀ ks, (commaKeys ks).length = 2 * ks.length := fun ks => by
    simp [commaKeys, List.length_flatMap, Nat.mul_comm]
  cases h with
  | line keys _ _ htext =>
    rw [htext, List.length_append, hlen]
    omega
  | blank ks k _ htext =>
    rw [htext]
    simp only [List.length_append, hlen, List.length_cons, List.length_nil]
    omega

/-- When a line is read right: its keys and its state are as they should be, or there is nothing
behind the wish value, or the loop does not get through. -/
def KeysCond (line : Str) (start : Nat) : Prop :=
  line.length < start ∨ (∀ rest keys, ¬ Taken (line.drop start) rest keys) ∨
    ∃ keys state, Bindings (line.drop start) keys state

theorem readKeys_taken (hs : ¬ line.length < start) (h : Taken (line.drop start) rest keys) :
    s.readKeys e line start = (keys.foldl (bindKey e) s).setState e rest.head? := by
  obtain ⟨hparse, hdrop⟩ := parseKeyBindings_taken h
  have hlen := taken_length h
  rw [List.length_drop] at hlen
  unfold readKeys
  rw [hparse, Run.ok_bind]
  dsimp only
  rw [if_neg (by omega), hdrop]

theorem setState_read (ho : s.Open) (h : Bindings text keys state) :
    s.KeysRead e text ((keys.foldl (bindKey e) s).setState e (some state)) := by
  obtain ⟨f, hf⟩ : ∃ f, keys.foldl (bindKey e) s = { s with cfgpMap := f } := bindKeys_else
  have hmap : ∀ ch, (keys.foldl (bindKey e) s).cfgpMap ch =
      s.cfgpMap ch ++ List.replicate ((keys.map Char.toNat).count ch) e := bindKeys_cfgpMap
  rw [hf] at hmap ⊢
  have ho' : ({ s with cfgpMap := f } : CfgReader).Open := ⟨ho.dynmem, ho.ptrmem⟩
  have hstate := h.state_mem
  simp only [List.mem_cons, List.not_mem_nil, or_false] at hstate
  rcases hstate with rfl | rfl | rfl
  · refine ⟨keys, 'a', h, fun ch => ?_, ?_⟩
    · rw [activate_cfgpMap]
      exact hmap ch
    · exact ownLists_activate ho'
  · refine ⟨keys, 'd', h, hmap, ?_⟩
    simp only [if_true, List.append_nil, List.map_id']
    rfl
  · refine ⟨keys, 'w', h, fun ch => ?_, ?_⟩
    · rw [activate_cfgpMap]
      exact hmap ch
    · have ho'' : (({ s with cfgpMap := f } : CfgReader).setWatch e).Open := ⟨ho.dynmem, ho.ptrmem⟩
      exact ownLists_activate ho''

theorem readKeys_iff (ho : s.Open) :
    s.KeysRead e (line.drop start) (s.readKeys e line start) ↔ KeysCond line start := by
  unfold KeysCond
  by_cases hs : line.length < start
  · refine iff_of_true ?_ (.inl hs)
    have hdrop : line.drop start = [] := List.drop_eq_nil_of_le (by omega)
    have hparse : parseKeyBindings line start = .ok ([], start) := by
      unfold parseKeyBindings
      rw [hdrop]
      rfl
    unfold readKeys
    rw [hparse, Run.ok_bind]
    dsimp only
    rw [if_pos hs, hdrop]
    exact ⟨⟨_, rfl⟩, fun keys state h => by simpa using h.text⟩
  · by_cases ht : ∃ rest keys, Taken (line.drop start) rest keys
    · obtain ⟨rest, keys, ht⟩ := ht
      constructor
      · intro h
        rw [readKeys_taken hs ht] at h
        cases hrest : rest.head? with
        | none =>
          rw [hrest] at h
          obtain ⟨⟨lidx, h⟩, -⟩ := h
          cases h
        | some c =>
          rw [hrest] at h
          obtain ⟨s', hs'⟩ : ∃ s', (keys.foldl (bindKey e) s).setState e (some c) = .ok s' := by
            unfold setState
            split
            · contradiction
            all_goals exact ⟨_, rfl⟩
          rw [hs'] at h
          obtain ⟨keys, state, h, -⟩ := h
          exact .inr (.inr ⟨keys, state, h⟩)
      · rintro (h | h | ⟨keys, state, h⟩)
        · exact absurd h hs
        · exact absurd ht (h _ _)
        · rw [readKeys_taken hs (bindings_taken h)]
          exact setState_read ho h
    · have hnot : ∀ rest keys, ¬ Taken (line.drop start) rest keys := fun rest keys h =>
        ht ⟨rest, keys, h⟩
      refine iff_of_true ?_ (.inr (.inl hnot))
      obtain ⟨lidx, hparse⟩ : ∃ lidx, scanKeys line start start [] (line.drop start) =
        .error (.parse lidx) := scanKeys_not_taken _ (le_refl _) rfl hnot
      unfold readKeys parseKeyBindings
      rw [hparse]
      exact ⟨⟨lidx, rfl⟩, fun keys state h => hnot _ _ (bindings_taken h)⟩

/-- **The keys and the activation state of a value line** are read right exactly for `KeysCond`. -/
theorem keyBindings_iff {s₁ : CfgReader} {behind : Nat} (ho : s.Open)
    (h : parseEntry fl s name line start = .ok (s₁, en, behind)) (hw : en.dynval ≠ .watch)
    (ht : en.ptrtgt = none) :
    s.KeysRead s.opt.entries.length (line.drop behind) (readValue fl s name line start) ↔
      KeysCond line behind := by
  obtain ⟨hsame, hen⟩ := parseEntry_sameLists h
  have hpush : s.SameLists (s₁.pushEntry en) := hsame.trans pushEntry_sameLists
  have hread : readValue fl s name line start =
      (s₁.pushEntry en).readKeys s.opt.entries.length line behind := by
    unfold readValue
    rw [h, Run.ok_bind]
    dsimp only
    rw [if_neg (by simp [hw, ht]), hen]
  rw [hread, ← readKeys_iff (hpush.opens ho)]
  unfold KeysRead
  cases (s₁.pushEntry en).readKeys s.opt.entries.length line behind with
  | error err => rfl
  | ok s' => simp only [hpush.cfgpMap, hpush.ownLists]

end Line

theorem init_open : init.Open := ⟨nofun, nofun⟩

/-- A floating point library without numbers. -/
def noFloats : FloatLib := ⟨fun _ => 0, fun _ => 0⟩

def boundLine : Str := "Gold 0x10 i32 99 a,b w".toList

theorem keyBindings_example : ∃ s₁ en, parseEntry noFloats init "Gold".toList boundLine 5 =
      .ok (s₁, en, 17) ∧
    init.KeysRead 0 (boundLine.drop 17) (readValue noFloats init "Gold".toList boundLine 5) := by
  obtain ⟨⟨s₁, en, behind⟩, h, heq⟩ := Run.exists_ok_of_map
    (x := parseEntry noFloats init "Gold".toList boundLine 5)
    (f := fun r => (r.2.1.dynval, r.2.1.ptrtgt, r.2.2)) (b := (.off, none, 17)) (by decide +kernel)
  obtain ⟨hd, ht, rfl⟩ : en.dynval = .off ∧ en.ptrtgt = none ∧ behind = 17 := by simpa using heq
  exact ⟨s₁, en, h, (keyBindings_iff init_open h (by simp [hd]) ht).mpr
    (.inr (.inr ⟨['a', 'b'], 'w', by decide, by simp, by decide, by decide⟩))⟩

/-- The only key stands at the end of the line: it is taken for the activation state. -/
def unboundLine : Str := "Gold 0x10 i32 99 a".toList

theorem keyBindings_not : ¬ ∀ (fl : FloatLib) (s : CfgReader) (name line : Str) (start : Nat)
    (s₁ : CfgReader) (en : CfgEntry) (behind : Nat), s.Open →
    parseEntry fl s name line start = .ok (s₁, en, behind) → en.dynval ≠ .watch →
    en.ptrtgt = none →
    s.KeysRead s.opt.entries.length (line.drop behind) (readValue fl s name line start) := by
  intro hall
  obtain ⟨⟨s₁, en, behind⟩, h, heq⟩ := Run.exists_ok_of_map
    (x := parseEntry noFloats init "Gold".toList unboundLine 5)
    (f := fun r => (r.2.1.dynval, r.2.1.ptrtgt, r.2.2)) (b := (.off, none, 17)) (by decide +kernel)
  obtain ⟨hd, ht, rfl⟩ : en.dynval = .off ∧ en.ptrtgt = none ∧ behind = 17 := by simpa using heq
  obtain ⟨s', hs'⟩ := Run.exists_ok_of_isOk
    (x := readValue noFloats init "Gold".toList unboundLine 5) (by decide +kernel)
  have hread := hall noFloats init _ _ _ s₁ en 17 init_open h (by simp [hd]) ht
  rw [hs'] at hread
  obtain ⟨keys, state, hb, -⟩ := hread
  have hblank : ' ' ∈ unboundLine.drop 17 := by
    rw [hb.text]
    simp
  exact absurd hblank (by decide)

end CfgReader

end UgTrain
