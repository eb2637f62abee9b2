import UgTrain.CLib.Fields
import UgTrain.Discovery
import UgTrain.Run

/-!
# The preload variable (`libcommon.c`, `preload_l.c`)

`preload_library` appends a library to the list of an environment variable, and `rm_from_env` takes it
out again in the process of the game. It edits the list in place. An element in front of a separator goes
together with it; for the last element, the separator in front of it stays. `rmFromEnv_iff`: the list is
the one without the element unless the element is the last of several.

* A variable is the text that `secure_getenv` gives; `malloc` and `setenv` succeed.
* `rmLoop_spec` is the loop over the bytes of the variable, `rmText` what it makes of the elements.
-/

namespace CLib

section Search

variable {s t pat buf buf' : List Char} {dst : Nat}

theorem store_length (h : store buf dst s = .ok buf') : buf'.length = buf.length := by
  unfold store at h
  split at h
  · rename_i hle
    cases h
    simp only [List.length_append, List.length_take, List.length_drop]
    omega
  · cases h

/-- A text without `nul` is not found across the end of a C string. -/
theorem prefix_cstr (hp : nul ∉ pat) : pat <+: s ++ nul :: t ↔ pat <+: s := by
  refine ⟨fun h => ?_, fun h => h.trans (List.prefix_append s _)⟩
  have hend : s ++ [nul] <+: s ++ nul :: t := ⟨t, by simp⟩
  rcases List.prefix_or_prefix_of_prefix h hend with hle | hle
  · rcases List.prefix_concat_iff.mp hle with heq | hs
    · exact absurd (heq ▸ List.mem_append_right s List.mem_cons_self) hp
    · exact hs
  · exact absurd (hle.subset (List.mem_append_right s List.mem_cons_self)) hp

end Search

end CLib

namespace UgTrain

open CLib

/-- The variables of a process. -/
abbrev Env := Str → Option Str

/-- The loop of `rm_from_env`, from `start` on. -/
def rmLoop (pattern : Str) (separator : Char) (buf : Str) (start : Nat) : Except Fault Str :=
  match _hend : strchr (buf.drop start) separator with
  | none =>
    if (strstr (buf.drop start) pattern).isSome then
      memset buf start (cstr (buf.drop start)).length
    else .ok buf
  | some i =>
    match _hcut : store buf (start + i) [nul] with
    | .error f => .error f
    | .ok cut =>
      if (strstr (cut.drop start) pattern).isSome then
        memmove cut start (start + i + 1) ((cstr (cut.drop (start + i + 1))).length + 1)
      else
        match _hback : store cut (start + i) [separator] with
        | .error f => .error f
        | .ok buf => rmLoop pattern separator buf (start + i + 1)
termination_by buf.length - start
decreasing_by
  have hlt := strchr_lt _hend
  rw [List.length_drop] at hlt
  have hlen := (store_length _hback).trans (store_length _hcut)
  omega

/-- `rm_from_env`. -/
def rmFromEnv (env : Env) (envName pattern : Str) (separator : Char) : Except Fault Env :=
  match env envName with
  | none => .ok env
  | some envVar => do
    let buf ← rmLoop pattern separator (envVar ++ [nul]) 0
    return Function.update env envName (some (cstr buf))

/-- `env_append`. -/
def envAppend (env : Env) (name val : Str) (separator : Char) : Env :=
  match env name with
  | some oldEnv => Function.update env name (some (oldEnv ++ separator :: val))
  | none => Function.update env name (some val)

/-- `PRELOAD_VAR` -/
def preloadVar : Str := "LD_PRELOAD".toList

/-- `preload_library`. -/
def preloadLibrary (env : Env) (libPath : Option Str) : Env :=
  match libPath with
  | none => env
  | some path => if path.head? ≠ some '-' then envAppend env preloadVar path ':' else env

/-! ## Elements -/

/-- The elements without the first one that has the pattern in it. -/
def removeEntry (pattern : Str) (separator : Char) (envVar : Str) : Str :=
  [separator].intercalate ((envVar.splitOn separator).eraseP fun x => decide (pattern <:+: x))

/-- The first element with the pattern is the last of several. -/
def MatchEnds (pattern : Str) (separator : Char) (envVar : Str) : Prop :=
  ∃ pre x, pre ≠ [] ∧ envVar.splitOn separator = pre ++ [x] ∧ pattern <:+: x ∧
    ∀ y ∈ pre, ¬ pattern <:+: y

/-- What the loop makes of the elements. -/
def rmText (pattern : Str) (separator : Char) : List Str → Str
  | [] => []
  | [x] => if pattern <:+: x then [] else x
  | x :: y :: els =>
    if pattern <:+: x then [separator].intercalate (y :: els)
    else x ++ separator :: rmText pattern separator (y :: els)

section Loop

variable {pattern p t s value : Str} {separator : Char} {els : List Str}

theorem strstr_isSome_iff (hs : nul ∉ s) (hp : nul ∉ pattern) :
    (strstr (s ++ nul :: t) pattern).isSome ↔ pattern <:+: s := by
  induction s with
  | nil =>
    rw [List.nil_append, List.infix_nil, strstr]
    cases pattern with
    | nil => simp
    | cons c cs =>
      have hc : c ≠ nul := fun h => hp (h ▸ List.mem_cons_self)
      simp [List.isPrefixOf, hc]
  | cons c s ih =>
    simp only [List.mem_cons, not_or] at hs
    rw [List.infix_cons_iff, ← ih hs.2, List.cons_append, strstr]
    have hpre : pattern.isPrefixOf (c :: (s ++ nul :: t)) = true ↔ pattern <+: c :: s := by
      rw [List.isPrefixOf_iff_prefix, ← List.cons_append, prefix_cstr hp]
    by_cases h : pattern <+: c :: s
    · rw [if_pos (hpre.mpr h)]
      simp [h]
    · rw [if_neg (mt hpre.mp h), if_neg (Ne.symm hs.1), Option.isSome_map]
      simp [h]

/-- **The loop** keeps what is in front of `start`. -/
theorem rmLoop_spec (hsep : separator ≠ nul) (hp : nul ∉ pattern) (hne : els ≠ [])
    (hels : ∀ x ∈ els, separator ∉ x ∧ nul ∉ x) :
    ∃ t', rmLoop pattern separator (p ++ [separator].intercalate els ++ nul :: t) p.length =
      .ok (p ++ rmText pattern separator els ++ nul :: t') := by
  induction els generalizing p with
  | nil => exact absurd rfl hne
  | cons x els ih =>
    obtain ⟨hx, hx0⟩ := hels x (by simp)
    cases els with
    | nil =>
      rw [List.intercalate_singleton, List.append_assoc]
      have hdrop : (p ++ (x ++ nul :: t)).drop p.length = x ++ nul :: t := List.drop_left
      have hend : strchr (x ++ nul :: t) separator = none := by
        rw [strchr_eq_none hsep, cstr_append_nul hx0]
        exact hx
      rw [rmLoop]
      split
      · rw [hdrop, rmText]
        by_cases hm : pattern <:+: x
        · -- the separator in front stays
          rw [if_pos ((strstr_isSome_iff hx0 hp).mpr hm), if_pos hm, cstr_append_nul hx0]
          refine ⟨List.replicate x.length nul ++ t, ?_⟩
          unfold memset
          have hnul : List.replicate x.length nul ++ nul :: t =
              nul :: (List.replicate x.length nul ++ t) := by
            rw [← List.cons_append, ← List.replicate_succ, List.replicate_succ', List.append_assoc]
            rfl
          rw [← List.append_assoc, store_append (by simp), List.append_assoc, hnul, List.append_nil]
        · rw [if_neg (mt (strstr_isSome_iff hx0 hp).mp hm), if_neg hm]
          exact ⟨t, by rw [List.append_assoc]⟩
      · rename_i i hi
        rw [hdrop, hend] at hi
        cases hi
    | cons y els =>
      have hrest : ∀ z ∈ y :: els, separator ∉ z ∧ nul ∉ z := fun z hz =>
        hels z (List.mem_cons_of_mem _ hz)
      have hr0 : nul ∉ [separator].intercalate (y :: els) :=
        not_mem_intercalate (Ne.symm hsep) fun z hz => (hrest z hz).2
      have ih := fun p => ih (p := p) (List.cons_ne_nil y els) hrest
      rw [List.intercalate_cons_cons]
      rw [rmText]
      generalize [separator].intercalate (y :: els) = r at hr0 ih ⊢
      have hbuf : p ++ (x ++ [separator] ++ r) ++ nul :: t =
          p ++ x ++ [separator] ++ (r ++ nul :: t) := by simp
      have hdrop : ∀ c : Char, (p ++ x ++ [c] ++ (r ++ nul :: t)).drop p.length =
          x ++ c :: (r ++ nul :: t) := fun c => by
        rw [List.append_assoc, List.append_assoc, List.drop_left]
        rfl
      have hend : strchr (x ++ separator :: (r ++ nul :: t)) separator = some x.length :=
        strchr_append_cons x _ hx hx0 hsep
      have hcut : ∀ c d : Char, store (p ++ x ++ [c] ++ (r ++ nul :: t)) (p.length + x.length) [d] =
          .ok (p ++ x ++ [d] ++ (r ++ nul :: t)) := fun c d => by
        rw [← List.length_append]
        exact store_append rfl
      rw [hbuf, rmLoop]
      split
      · rename_i hnone
        rw [hdrop, hend] at hnone
        cases hnone
      rename_i i hi
      rw [hdrop, hend] at hi
      cases hi
      split
      · rename_i f hf
        rw [hcut] at hf
        cases hf
      rename_i cut hok
      rw [hcut] at hok
      cases hok
      rw [hdrop]
      by_cases hm : pattern <:+: x
      · -- the rest of the list moves up
        rw [if_pos ((strstr_isSome_iff hx0 hp).mpr hm), if_pos hm]
        have hlen : p.length + x.length + 1 = p.length + (x ++ [nul]).length := by
          rw [List.length_append]
          rfl
        have hsplit : p ++ x ++ [nul] ++ (r ++ nul :: t) = p ++ (x ++ [nul]) ++ (r ++ nul :: t) := by
          simp
        have htail : (p ++ (x ++ [nul]) ++ (r ++ nul :: t)).drop (p.length + (x ++ [nul]).length) =
            r ++ nul :: t := by
          rw [← List.length_append, List.drop_left]
        rw [hsplit, hlen, htail, cstr_append_nul hr0, memmove_append (by simp)]
        refine ⟨(x ++ [nul] ++ (r ++ nul :: t)).drop (r.length + 1), ?_⟩
        rw [List.take_append, List.take_of_length_le (by omega), Nat.add_sub_cancel_left]
        simp
      · rw [if_neg (mt (strstr_isSome_iff hx0 hp).mp hm), if_neg hm]
        split
        · rename_i f hf
          rw [hcut] at hf
          cases hf
        rename_i back hok
        rw [hcut] at hok
        cases hok
        obtain ⟨t', ht'⟩ := ih (p ++ x ++ [separator])
        refine ⟨t', ?_⟩
        have hlen : p.length + x.length + 1 = (p ++ x ++ [separator]).length := by
          rw [List.length_append, List.length_append]
          rfl
        rw [hlen, ← List.append_assoc, ht']
        simp

end Loop

/-! ## The list without the element -/

section Remove

variable {pattern value : Str} {separator : Char} {pre els rest : List Str} {x : Str}

theorem rmText_append (hpre : ∀ y ∈ pre, ¬ pattern <:+: y) (hne : rest ≠ []) :
    rmText pattern separator (pre ++ rest) =
      sepText separator pre ++ rmText pattern separator rest := by
  induction pre with
  | nil => rfl
  | cons x pre ih =>
    obtain ⟨y, els, hels⟩ : ∃ y els, pre ++ rest = y :: els :=
      List.exists_cons_of_ne_nil (by simp [hne])
    have ih := ih fun y hy => hpre y (List.mem_cons_of_mem _ hy)
    rw [hels] at ih
    rw [List.cons_append, hels, rmText, if_neg (hpre x (by simp)), ih]
    simp [sepText]

/-- The first element with the pattern. -/
theorem first_match (pattern : Str) (els : List Str) : (∀ y ∈ els, ¬ pattern <:+: y) ∨
    ∃ pre x post, els = pre ++ x :: post ∧ pattern <:+: x ∧ ∀ y ∈ pre, ¬ pattern <:+: y := by
  induction els with
  | nil => exact .inl nofun
  | cons x els ih =>
    by_cases hx : pattern <:+: x
    · exact .inr ⟨[], x, els, rfl, hx, nofun⟩
    · rcases ih with hno | ⟨pre, z, post, rfl, hz, hpre⟩
      · exact .inl (by simpa [hx] using hno)
      · exact .inr ⟨x :: pre, z, post, rfl, hz, by simpa [hx] using hpre⟩

theorem eraseP_match (hpre : ∀ y ∈ pre, ¬ pattern <:+: y) (hx : pattern <:+: x) :
    (pre ++ x :: rest).eraseP (fun x => decide (pattern <:+: x)) = pre ++ rest := by
  rw [List.eraseP_append_right _ (by simpa using hpre), List.eraseP_cons_of_pos (by simpa using hx)]

/-- What the loop makes of the elements is the list without the first match, or ends with the
separator behind it. -/
theorem rmText_eq_iff (hne : els ≠ []) : rmText pattern separator els =
      [separator].intercalate (els.eraseP fun x => decide (pattern <:+: x)) ↔
    ¬ ∃ pre x, pre ≠ [] ∧ els = pre ++ [x] ∧ pattern <:+: x ∧ ∀ y ∈ pre, ¬ pattern <:+: y := by
  rcases first_match pattern els with hno | ⟨pre, x, post, rfl, hx, hpre⟩
  · refine iff_of_true ?_ ?_
    · have hlast := List.dropLast_append_getLast hne
      have herase : els.eraseP (fun x => decide (pattern <:+: x)) = els :=
        List.eraseP_of_forall_not (by simpa using hno)
      rw [herase, ← hlast, rmText_append (fun y hy => hno y (List.dropLast_subset _ hy)) (by simp),
        intercalate_append (by simp), List.intercalate_singleton, rmText,
        if_neg (hno _ (List.getLast_mem hne))]
    · rintro ⟨pre, x, -, rfl, hx, -⟩
      exact hno x (by simp) hx
  · rw [rmText_append hpre (List.cons_ne_nil x post), eraseP_match hpre hx]
    cases post with
    | nil =>
      rw [rmText, if_pos hx, List.append_nil, List.append_nil]
      by_cases hnil : pre = []
      · subst hnil
        refine iff_of_true rfl ?_
        rintro ⟨pre, z, hpre', heq, -⟩
        exact hpre' (List.append_inj_left' heq rfl).symm
      · -- one separator more than elements behind it
        refine iff_of_false ?_ (not_not.mpr ⟨pre, x, hnil, rfl, hx, hpre⟩)
        rw [sepText_eq hnil]
        intro heq
        have hlen := congrArg List.length heq
        rw [List.length_append, List.length_singleton] at hlen
        omega
    | cons y post =>
      rw [rmText, if_pos hx, intercalate_append (List.cons_ne_nil y post)]
      refine iff_of_true rfl ?_
      rintro ⟨pre', z, -, heq, -, hpre'⟩
      -- the first match is in front of the last element
      have hmem : x ∈ pre' := by
        have hdrop := congrArg List.dropLast heq
        rw [List.dropLast_concat, List.dropLast_append_of_ne_nil (List.cons_ne_nil _ _)] at hdrop
        rw [← hdrop]
        simp
      exact hpre' x hmem hx

theorem not_mem_rmText {c : Char} (hc : c ≠ separator) (h : ∀ x ∈ els, c ∉ x) :
    c ∉ rmText pattern separator els := by
  induction els with
  | nil => simp [rmText]
  | cons x els ih =>
    have ih := ih fun y hy => h y (List.mem_cons_of_mem _ hy)
    have hx := h x List.mem_cons_self
    cases els with
    | nil =>
      rw [rmText]
      split
      · exact List.not_mem_nil
      · exact hx
    | cons y els =>
      rw [rmText]
      split
      · exact not_mem_intercalate hc fun z hz => h z (List.mem_cons_of_mem _ hz)
      · simpa [hc, hx] using ih

theorem rmFromEnv_eq {env : Env} {name : Str} (hset : env name = some value) (hv : nul ∉ value)
    (hp : nul ∉ pattern) (hsep : separator ≠ nul) : rmFromEnv env name pattern separator =
      .ok (Function.update env name (some (rmText pattern separator (value.splitOn separator)))) := by
  have hels : ∀ x ∈ value.splitOn separator, separator ∉ x ∧ nul ∉ x := fun x hx =>
    ⟨fun hc => (mem_splitOn hx hc).2 rfl, fun hc => hv (mem_splitOn hx hc).1⟩
  have hnul : nul ∉ rmText pattern separator (value.splitOn separator) :=
    not_mem_rmText (Ne.symm hsep) fun x hx => (hels x hx).2
  obtain ⟨t', ht'⟩ := rmLoop_spec (p := []) (t := []) hsep hp
    (List.splitOn_ne_nil separator value) hels
  rw [List.intercalate_splitOn, List.nil_append, List.nil_append, List.length_nil] at ht'
  unfold rmFromEnv
  rw [hset]
  dsimp only
  rw [ht', Run.ok_bind, cstr_append_nul hnul]
  rfl

theorem rmFromEnv_removes {env : Env} {name : Str} (hset : env name = some value)
    (hv : nul ∉ value) (hp : nul ∉ pattern) (hsep : separator ≠ nul) :
    (∃ env', rmFromEnv env name pattern separator = .ok env' ∧
      env' name = some (removeEntry pattern separator value)) ↔
      ¬ MatchEnds pattern separator value := by
  rw [rmFromEnv_eq hset hv hp hsep]
  have hne : value.splitOn separator ≠ [] := List.splitOn_ne_nil separator value
  have hiff := @rmText_eq_iff pattern separator _ hne
  refine Iff.trans ?_ hiff
  constructor
  · rintro ⟨env', henv, hname⟩
    cases henv
    rw [Function.update_self] at hname
    exact Option.some.inj hname
  · intro heq
    exact ⟨_, rfl, by rw [Function.update_self, heq]; rfl⟩

/-- A library behind a list without a match. -/
theorem splitOn_envAppend {old lib : Str} (hlib : separator ∉ lib) :
    (old ++ separator :: lib).splitOn separator = old.splitOn separator ++ [lib] := by
  rw [List.splitOn_append_cons_self, List.splitOn_eq_singleton hlib]

end Remove

/-- **Removing** gives the list without its first match, unless this is the last one of several
elements. So it never undoes that a library was appended to a list without a match: a separator stays
behind the list. -/
theorem rmFromEnv_iff (env : Env) (name pattern : Str) (separator : Char)
    (hp : nul ∉ pattern) (hsep : separator ≠ nul) :
    (∀ value, env name = some value → nul ∉ value →
      ((∃ env', rmFromEnv env name pattern separator = .ok env' ∧
        env' name = some (removeEntry pattern separator value)) ↔
        ¬ MatchEnds pattern separator value)) ∧
    ∀ old lib, env name = some old → nul ∉ old → nul ∉ lib →
      (∀ x ∈ old.splitOn separator, ¬ pattern <:+: x) → pattern <:+: lib → separator ∉ lib →
      ∃ env', rmFromEnv (envAppend env name lib separator) name pattern separator = .ok env' ∧
        env' name = some (old ++ [separator]) := by
  refine ⟨fun value hset hv => rmFromEnv_removes hset hv hp hsep, ?_⟩
  intro old lib hset hold hlib hno hmatch hsep'
  have hset' : envAppend env name lib separator name = some (old ++ separator :: lib) := by
    unfold envAppend
    rw [hset]
    exact Function.update_self ..
  have hv : nul ∉ old ++ separator :: lib := by simp [hold, hlib, Ne.symm hsep]
  refine ⟨_, rmFromEnv_eq hset' hv hp hsep, ?_⟩
  rw [Function.update_self, splitOn_envAppend hsep', rmText_append hno (List.cons_ne_nil lib []),
    rmText, if_pos hmatch]
  rw [List.append_nil, sepText_eq (List.splitOn_ne_nil separator old), List.intercalate_splitOn]

/-- A process with one library in the list. -/
def preloadEnv : Env := Function.update (fun _ => none) preloadVar (some "libfoo.so".toList)

theorem rmFromEnv_iff_preloadEnv : ∃ env',
    rmFromEnv (envAppend preloadEnv preloadVar "libmemhack64.so".toList ':') preloadVar
      "libmemhack".toList ':' = .ok env' ∧ env' preloadVar = some ("libfoo.so".toList ++ [':']) :=
  (rmFromEnv_iff preloadEnv preloadVar "libmemhack".toList ':' (by decide) (by decide)).2
    "libfoo.so".toList "libmemhack64.so".toList (Function.update_self ..) (by decide) (by decide)
    (by decide) (by decide) (by decide)

/-- The game gets `libfoo.so:` and not the `libfoo.so` from before. -/
theorem rmFromEnv_leaves_separator : ∃ env',
    rmFromEnv (preloadLibrary preloadEnv (some "libmemhack64.so".toList)) preloadVar
      "libmemhack".toList ':' = .ok env' ∧
    env' preloadVar = some "libfoo.so:".toList ∧ env' preloadVar ≠ preloadEnv preloadVar ∧
    env' preloadVar ≠
      some (removeEntry "libmemhack".toList ':' "libfoo.so:libmemhack64.so".toList) := by
  have hset : preloadLibrary preloadEnv (some "libmemhack64.so".toList) preloadVar =
      some "libfoo.so:libmemhack64.so".toList := by decide
  refine ⟨_, rmFromEnv_eq hset (by decide) (by decide) (by decide), ?_, ?_, ?_⟩ <;> decide

end UgTrain
