import UgTrain.Adapt

/-!
# The lines that are written anew

What `parse_adapt_result` and `take_over_config` leave in the lines of the config, before it is
written.

* `AdaptState.Rewrites`: only the line of the process name and the one of the path are changed while the
  output is read, and they name what was read.
* `TakenOver`: the classes have the new sizes and addresses, and each of them its line.
-/

namespace UgTrain

open CLib

theorem setLine_eq_ok {cfgLines cfgLines' : List Str} {lnr : Nat} {line : Str}
    (h : setLine cfgLines lnr line = .ok cfgLines') :
    lnr < cfgLines.length ∧ cfgLines' = cfgLines.set lnr line := by
  unfold setLine at h
  split at h
  · rename_i hlt
    exact ⟨hlt, (Except.ok.inj h).symm⟩
  · cases h

namespace AdaptState

/-- What reading the output leaves in the lines; `b` is the line of the path. -/
structure Rewrites (b : Nat) (a a' : AdaptState) : Prop where
  length : a'.cfgLines.length = a.cfgLines.length
  other : ∀ j, j ≠ 0 → j ≠ b → a'.cfgLines[j]? = a.cfgLines[j]?
  first : a.cfgLines[0]? = some a.procName → a'.cfgLines[0]? = some a'.procName
  binpath : a'.gameBinpath = a.gameBinpath ∧ (b ≠ 0 → a'.cfgLines[b]? = a.cfgLines[b]?) ∨
    b ≠ 0 ∧ a'.cfgLines[b]? = some ("game_binpath ".toList ++ a'.gameBinpath)

section Output

variable {cfg : CfgMem} {a a' a'' : AdaptState} {b n : Nat} {name path text : Str}
  {fields fields' : List Str}

theorem Rewrites.refl : a.Rewrites b a := ⟨rfl, fun _ _ _ => rfl, id, .inl ⟨rfl, fun _ => rfl⟩⟩

theorem Rewrites.trans (h : a.Rewrites b a') (h' : a'.Rewrites b a'') : a.Rewrites b a'' := by
  refine ⟨h'.length.trans h.length, fun j hj hb => (h'.other j hj hb).trans (h.other j hj hb),
    fun h0 => h'.first (h.first h0), ?_⟩
  rcases h'.binpath with ⟨hpath', hline'⟩ | h'
  · rcases h.binpath with ⟨hpath, hline⟩ | ⟨hb, hline⟩
    · exact .inl ⟨hpath'.trans hpath, fun hb => (hline' hb).trans (hline hb)⟩
    · exact .inr ⟨hb, by rw [hline' hb, hline, hpath']⟩
  · exact .inr h'

theorem setProcName_rewrites (h : a.setProcName name = .ok a') : a.Rewrites b a' := by
  obtain ⟨cfgLines, hline, h⟩ := Run.bind_eq_ok.mp h
  cases h
  obtain ⟨hlt, rfl⟩ := setLine_eq_ok hline
  exact ⟨List.length_set, fun j hj _ => List.getElem?_set_ne hj.symm,
    fun _ => List.getElem?_set_self hlt,
    .inl ⟨rfl, fun hb => List.getElem?_set_ne hb.symm⟩⟩

theorem setBinpath_rewrites (hb : b ≠ 0) (h : a.setBinpath b path = .ok a') : a.Rewrites b a' := by
  unfold setBinpath at h
  split at h
  · cases h
  obtain ⟨cfgLines, hline, h⟩ := Run.bind_eq_ok.mp h
  cases h
  obtain ⟨hlt, rfl⟩ := setLine_eq_ok hline
  exact ⟨List.length_set, fun j _ hj => List.getElem?_set_ne hj.symm,
    fun h0 => (List.getElem?_set_ne hb).trans h0, .inr ⟨hb, List.getElem?_set_self hlt⟩⟩

theorem parseName_rewrites (h : parseName b a fields = .ok (a', name, fields')) :
    a.Rewrites b a' := by
  fun_induction parseName b a fields with
  | case1 =>
    rename_i ih
    obtain ⟨a₁, hname, h⟩ := Run.bind_eq_ok.mp h
    exact (setProcName_rewrites hname).trans (ih a₁ h)
  | case2 =>
    rename_i ih
    exact ih h
  | case3 =>
    rename_i hb ih
    obtain ⟨a₁, hpath, h⟩ := Run.bind_eq_ok.mp h
    exact (setBinpath_rewrites hb hpath).trans (ih a₁ h)
  | case4 | case6 =>
    cases h
    exact .refl
  | case5 | case7 => cases h

theorem parseObj_rewrites (h : parseObj cfg a name fields = .ok (a', fields')) :
    a.Rewrites b a' := by
  unfold parseObj at h
  split at h
  · split at h
    · cases h
      exact ⟨rfl, fun _ _ _ => rfl, id, .inl ⟨rfl, fun _ => rfl⟩⟩
    · cases h
  · cases h

theorem parseObjs_rewrites (h : parseObjs cfg b n a fields = .ok a') : a.Rewrites b a' := by
  induction n generalizing a fields with
  | zero =>
    cases h
    exact .refl
  | succ n ih =>
    obtain ⟨⟨a₁, name, fields₁⟩, hname, h⟩ := Run.bind_eq_ok.mp h
    obtain ⟨⟨a₂, fields₂⟩, hobj, h⟩ := Run.bind_eq_ok.mp h
    have h₂ := (parseName_rewrites hname).trans (parseObj_rewrites hobj)
    dsimp only at h
    split at h
    · cases h
      exact h₂
    · split at h
      · cases h
      · exact h₂.trans (ih h)

/-- **Reading the output** changes two lines at most. -/
theorem parseAdaptResult_rewrites (h : parseAdaptResult cfg b a text = .ok a') :
    a.Rewrites b a' := by
  unfold parseAdaptResult at h
  split at h
  · split at h
    · exact parseObjs_rewrites h
    · cases h
  · cases h

end Output

end AdaptState

/-! ## Classes -/

/-- The class with its new size and address. -/
def DynMemEntry.takeOver (dm : DynMemEntry) (adp : U32 × Ptr) : DynMemEntry :=
  { dm with memSize := adp.1.setWidth 64, codeAddr := adp.2 }

/-- The classes and the lines behind the classes `refs`. -/
structure TakenOver (adp : Nat → U32 × Ptr) (cfgLine : Nat → Nat) (dynmems : List DynMemEntry)
    (cfgLines : List Str) (refs : List Nat) (x : List DynMemEntry × List Str) : Prop where
  classes : x.1 = dynmems.mapIdx fun d dm => if d ∈ refs then dm.takeOver (adp d) else dm
  length : x.2.length = cfgLines.length
  other : ∀ j, (∀ d ∈ refs, cfgLine d ≠ j) → x.2[j]? = cfgLines[j]?
  line : ∀ d ∈ refs, ∀ dm, dynmems[d]? = some dm →
    (∀ d' ∈ refs, cfgLine d' = cfgLine d → d' = d) →
    x.2[cfgLine d]? = some (dm.takeOver (adp d)).line

section Classes

variable {adp : Nat → U32 × Ptr} {cfgLine : Nat → Nat} {dynmems : List DynMemEntry}
  {cfgLines cfgLines' : List Str} {refs ds : List Nat} {x x' : List DynMemEntry × List Str} {d : Nat}

theorem takeOverClass_step (hx : TakenOver adp cfgLine dynmems cfgLines refs x)
    (h : takeOverClass adp cfgLine x d = .ok x') :
    TakenOver adp cfgLine dynmems cfgLines (refs ++ [d]) x' := by
  have hmem : ∀ k, k ∈ refs ++ [d] ↔ k ∈ refs ∨ k = d := by simp
  have hget : x.1[d]? = dynmems[d]?.map fun dm => if d ∈ refs then dm.takeOver (adp d) else dm := by
    rw [hx.classes, List.getElem?_mapIdx]
  unfold takeOverClass at h
  cases hdm : dynmems[d]? with
  | none =>
    rw [hget, hdm] at h
    cases h
    refine ⟨?_, hx.length, fun j hj => hx.other j fun k hk => hj k ((hmem k).mpr (.inl hk)),
      fun k hk dm hk' hinj => ?_⟩
    · rw [hx.classes]
      refine List.ext_getElem? fun k => ?_
      rw [List.getElem?_mapIdx, List.getElem?_mapIdx]
      by_cases hkd : k = d
      · rw [hkd, hdm]
        rfl
      · simp only [hmem, hkd, or_false]
    · rcases (hmem k).mp hk with hk | rfl
      · exact hx.line k hk dm hk' fun d' hd' => hinj d' ((hmem d').mpr (.inl hd'))
      · cases hdm.symm.trans hk'
  | some dm =>
    rw [hget, hdm] at h
    obtain ⟨cfgLines', hline, h⟩ := Run.bind_eq_ok.mp h
    cases h
    obtain ⟨hlt, rfl⟩ := setLine_eq_ok hline
    have hnew : ({ (if d ∈ refs then dm.takeOver (adp d) else dm) with
        memSize := (adp d).1.setWidth 64, codeAddr := (adp d).2 } : DynMemEntry) =
        dm.takeOver (adp d) := by
      split <;> rfl
    refine ⟨?_, List.length_set.trans hx.length, fun j hj => ?_, fun k hk dm' hk' hinj => ?_⟩
    · rw [hx.classes, hnew]
      refine List.ext_getElem? fun k => ?_
      rw [List.getElem?_set, List.getElem?_mapIdx, List.getElem?_mapIdx, List.length_mapIdx]
      by_cases hkd : d = k
      · subst hkd
        rw [if_pos rfl, if_pos (List.getElem?_eq_some_iff.mp hdm).1, hdm]
        simp [hmem]
      · simp only [hmem, Ne.symm hkd, or_false, if_neg hkd]
    · dsimp only
      rw [List.getElem?_set_ne (hj d ((hmem d).mpr (.inr rfl)))]
      exact hx.other j fun k hk => hj k ((hmem k).mpr (.inl hk))
    · dsimp only
      rw [hnew]
      by_cases hkd : k = d
      · subst hkd
        rw [List.getElem?_set_self hlt, Option.some.inj (hdm.symm.trans hk')]
      · have hne : cfgLine d ≠ cfgLine k := fun heq =>
          hkd (hinj d ((hmem d).mpr (.inr rfl)) heq).symm
        rw [List.getElem?_set_ne hne]
        refine hx.line k (((hmem k).mp hk).resolve_right hkd) dm' hk' fun d' hd' => ?_
        exact hinj d' ((hmem d').mpr (.inl hd'))

theorem takeOverClass_fold (hx : TakenOver adp cfgLine dynmems cfgLines refs x)
    (h : ds.foldlM (takeOverClass adp cfgLine) x = .ok x') :
    TakenOver adp cfgLine dynmems cfgLines (refs ++ ds) x' := by
  induction ds generalizing refs x with
  | nil =>
    cases h
    rwa [List.append_nil]
  | cons d ds ih =>
    obtain ⟨x₁, hstep, h⟩ := Run.bind_eq_ok.mp h
    rw [List.append_cons]
    exact ih (takeOverClass_step hx hstep) h

/-- **Taking over** gives the referenced classes their sizes and addresses, and each line is the one of a
class, `adapt_required 0`, or what it was. -/
theorem takeOverLines_eq {cfg cfg' : CfgMem} {adpReqLine : Nat}
    (h : takeOverLines cfg adp cfgLine adpReqLine cfgLines = .ok (cfg', cfgLines')) :
    ∃ lines, TakenOver adp cfgLine cfg.dynmems cfgLines (classRefs none cfg.entries)
      (cfg'.dynmems, lines) ∧ cfg' = { cfg with dynmems := cfg'.dynmems } ∧
      cfgLines'.length = cfgLines.length ∧
      (adpReqLine ≠ 0 → cfgLines'[adpReqLine]? = some "adapt_required 0".toList) ∧
      ∀ j, (adpReqLine ≠ 0 → j ≠ adpReqLine) → cfgLines'[j]? = lines[j]? := by
  unfold takeOverLines at h
  obtain ⟨⟨dynmems, lines⟩, hfold, h⟩ := Run.bind_eq_ok.mp h
  have hstart : TakenOver adp cfgLine cfg.dynmems cfgLines [] (cfg.dynmems, cfgLines) := by
    refine ⟨?_, rfl, fun _ _ => rfl, fun d hd => absurd hd List.not_mem_nil⟩
    refine List.ext_getElem? fun k => ?_
    rw [List.getElem?_mapIdx]
    simp
  have htaken := takeOverClass_fold hstart hfold
  dsimp only at h
  split at h
  · rename_i hpos
    obtain ⟨lines', hreq, h⟩ := Run.bind_eq_ok.mp h
    cases h
    obtain ⟨hlt, rfl⟩ := setLine_eq_ok hreq
    exact ⟨lines, htaken, rfl, List.length_set.trans htaken.length,
      fun _ => List.getElem?_set_self hlt, fun j hj => List.getElem?_set_ne (hj (by omega)).symm⟩
  · rename_i hzero
    cases h
    exact ⟨cfgLines', htaken, rfl, htaken.length,
      fun hne => absurd (Nat.pos_of_ne_zero hne) hzero, fun _ _ => rfl⟩

end Classes

end UgTrain
