import UgTrain.ReverseParser

/-!
# The windows of a file that is read in reverse

A call asks for the bytes in front of the last window, as many as there is room for behind what is
left over. It compares the position after a cast to `unsigned`, so the windows are consecutive
exactly if the file has less than `2 ^ 32` bytes (`visitsAll_iff`).
-/

namespace UgTrain

open CLib

/-- `fd_offs` when a window is chosen: the end of the file after the scan of the stack end. -/
def startOffs (size : Nat) (fdOffs : Int) : Int := if fdOffs = reverseFst then size else fdOffs

/-- What a call with `ilen` bytes left over chooses. -/
def seekCall (size : Nat) (fdOffs : Int) (ilen : Nat) : Option (Window × Int) :=
  seekWindow (startOffs size fdOffs) (pipeBuf - 1 - ilen)

/-- The window that a call reads. It is `none` if the call ends with `-1`: nothing to choose, or a
read of no bytes. -/
def requested (size : Nat) (fdOffs : Int) (ilen : Nat) : Option Window :=
  ((seekCall size fdOffs ilen).map (·.1)).filter (0 < ·.len)

def nextOffs (size : Nat) (fdOffs : Int) (ilen : Nat) : Int :=
  ((seekCall size fdOffs ilen).map (·.2)).getD (startOffs size fdOffs)

/-- The window of the call `k`; `ilens` are the left-over lengths. -/
def windowAt (size : Nat) (fdOffs : Int) (ilens : Nat → Nat) : Nat → Option Window
  | 0 => requested size fdOffs (ilens 0)
  | k + 1 => windowAt size (nextOffs size fdOffs (ilens 0)) (fun i => ilens (i + 1)) k

/-- Windows from `e` down to the start of the file. -/
def Consecutive : Nat → List Window → Prop
  | e, [] => e = 0
  | e, w :: ws => w.offs + w.len = e ∧ 0 < w.len ∧ Consecutive w.offs ws

def Window.Has (w : Window) (i : Nat) : Prop := w.offs ≤ i ∧ i < w.offs + w.len

/-- The calls read consecutive windows from the end of the file to its start, so each byte once, and
then end with `-1`. -/
def VisitsAll (size : Nat) (ilens : Nat → Nat) : Prop :=
  ∃ ws, (∀ k, windowAt size reverseFst ilens k = ws[k]?) ∧ Consecutive size ws ∧
    ∀ i < size, ∃! k : Nat, ∃ w : Window, ws[k]? = some w ∧ w.Has i

/-! ## Consecutive windows -/

theorem Consecutive.has_lt {e k i : Nat} {ws : List Window} {w : Window} (h : Consecutive e ws)
    (hk : ws[k]? = some w) (hi : w.Has i) : i < e := by
  induction ws generalizing e k with
  | nil => cases hk
  | cons v ws ih =>
    obtain ⟨he, -, hws⟩ := h
    cases k with
    | zero =>
      cases hk
      have := hi.2
      omega
    | succ k =>
      have := ih hws hk
      omega

/-- Each byte is in one window. -/
theorem Consecutive.existsUnique {e i : Nat} {ws : List Window} (h : Consecutive e ws)
    (hi : i < e) : ∃! k : Nat, ∃ w : Window, ws[k]? = some w ∧ w.Has i := by
  induction ws generalizing e with
  | nil =>
    cases h
    omega
  | cons v ws ih =>
    obtain ⟨he, -, hws⟩ := h
    by_cases hv : v.offs ≤ i
    · refine ⟨0, ⟨v, rfl, hv, by omega⟩, ?_⟩
      rintro (_ | k) ⟨w, hk, hw⟩
      · rfl
      · have := hws.has_lt hk hw
        omega
    · obtain ⟨k, ⟨w, hk, hw⟩, huniq⟩ := ih hws (by omega)
      refine ⟨k + 1, ⟨w, hk, hw⟩, ?_⟩
      rintro (_ | j) ⟨w', hj, hw'⟩
      · cases hj
        exact absurd hw'.1 hv
      · rw [huniq j ⟨w', hj, hw'⟩]

/-! ## The calls -/

section Calls

variable {size e : Nat} {fdOffs : Int} {ilens : Nat → Nat}

theorem startOffs_idem : startOffs size (startOffs size fdOffs) = startOffs size fdOffs := by
  unfold startOffs reverseFst
  split <;> omega

/-- Once the start is reached, all calls end with `-1`. -/
theorem windowAt_done (h : startOffs size fdOffs ≤ 0) (k : Nat) :
    windowAt size fdOffs ilens k = none := by
  induction k generalizing fdOffs ilens with
  | zero => simp [windowAt, requested, seekCall, seekWindow, h]
  | succ k ih =>
    have hnext : nextOffs size fdOffs (ilens 0) = startOffs size fdOffs := by
      simp [nextOffs, seekCall, seekWindow, h]
    rw [windowAt, hnext]
    exact ih (startOffs_idem.trans_le h)

/-- A position that the cast keeps. -/
theorem seekWindow_small {m : Nat} (h0 : 0 < e) (he : e < 2 ^ 32) :
    seekWindow e m = some (if m < e then ((⟨e - m, m⟩ : Window), (e : Int) - m)
      else ((⟨0, e⟩ : Window), reverseEof)) := by
  have hcast : ((e : Int) % 2 ^ 32).toNat = e := by omega
  unfold seekWindow
  rw [hcast, if_neg (by omega)]
  split
  · rename_i hm
    rw [show ((e : Int) - m).toNat = e - m by omega]
  · rfl

/-- In a file of less than `2 ^ 32` bytes. -/
theorem windows_small (he : startOffs size fdOffs = e) (hlt : e < 2 ^ 32)
    (hl : ∀ k, ilens k < pipeBuf - 1) :
    ∃ ws, (∀ k, windowAt size fdOffs ilens k = ws[k]?) ∧ Consecutive e ws := by
  induction e using Nat.strongRecOn generalizing fdOffs ilens with
  | _ e ih =>
    by_cases h0 : e = 0
    · subst h0
      refine ⟨[], fun k => ?_, rfl⟩
      rw [windowAt_done he.le]
      rfl
    · have hm := hl 0
      generalize hmax : pipeBuf - 1 - ilens 0 = m at *
      have hseek : seekCall size fdOffs (ilens 0) = seekWindow e m := by
        unfold seekCall
        rw [he, hmax]
      rw [seekWindow_small (by omega) hlt] at hseek
      by_cases hme : m < e
      · rw [if_pos hme] at hseek
        have hnext : nextOffs size fdOffs (ilens 0) = ((e - m : Nat) : Int) := by
          simp only [nextOffs, hseek, Option.map_some, Option.getD_some]
          omega
        have hstart : startOffs size ((e - m : Nat) : Int) = ((e - m : Nat) : Int) :=
          if_neg (by unfold reverseFst; omega)
        obtain ⟨ws, hws, hcons⟩ := ih (e - m) (by omega) hstart (by omega) fun k => hl (k + 1)
        refine ⟨⟨e - m, m⟩ :: ws, fun k => ?_, ⟨by simp only; omega, by simp only; omega, hcons⟩⟩
        cases k with
        | zero =>
          have hpos : 0 < m := by omega
          simp [windowAt, requested, hseek, hpos]
        | succ k =>
          rw [windowAt, hnext]
          exact hws k
      · rw [if_neg hme] at hseek
        have hnext : nextOffs size fdOffs (ilens 0) = reverseEof := by
          simp [nextOffs, hseek]
        refine ⟨[⟨0, e⟩], fun k => ?_, ⟨by simp, by simp only; omega, rfl⟩⟩
        cases k with
        | zero =>
          have hpos : 0 < e := by omega
          simp [windowAt, requested, hseek, hpos]
        | succ k =>
          rw [windowAt, hnext, windowAt_done (by simp [startOffs, reverseEof, reverseFst])]
          rfl

/-- From a position that is larger, no windows lead down to the start of the file: the one that has
to pass `2 ^ 32` starts at 0 instead. -/
theorem windows_large {ws : List Window} (ilens : Nat → Nat) (he : startOffs size fdOffs = e)
    (hle : 2 ^ 32 ≤ e) (hws : ∀ k, windowAt size fdOffs ilens k = ws[k]?) : ¬ Consecutive e ws := by
  induction ws generalizing e fdOffs ilens with
  | nil =>
    intro h
    cases h
    omega
  | cons w ws ih =>
    rintro ⟨hend, -, hcons⟩
    have h0 : requested size fdOffs (ilens 0) = some w := hws 0
    generalize hmax : pipeBuf - 1 - ilens 0 = m at *
    have hseek : seekCall size fdOffs (ilens 0) = seekWindow e m := by
      unfold seekCall
      rw [he, hmax]
    unfold seekWindow at hseek
    rw [if_neg (by omega)] at hseek
    unfold requested at h0
    by_cases hm : m < ((e : Int) % 2 ^ 32).toNat
    · rw [if_pos hm] at hseek
      rw [hseek] at h0
      obtain ⟨h0, -⟩ := Option.filter_eq_some_iff.mp h0
      cases h0
      have hoffs : ((e : Int) - m).toNat = e - m := by omega
      have hnext : nextOffs size fdOffs (ilens 0) = ((e - m : Nat) : Int) := by
        simp only [nextOffs, hseek, Option.map_some, Option.getD_some]
        omega
      have hstart : startOffs size ((e - m : Nat) : Int) = ((e - m : Nat) : Int) :=
        if_neg (by unfold reverseFst; omega)
      refine ih (fun i => ilens (i + 1)) hstart (by omega) (fun k => ?_) (hoffs ▸ hcons)
      have := hws (k + 1)
      rwa [windowAt, hnext] at this
    · rw [if_neg hm] at hseek
      rw [hseek] at h0
      obtain ⟨h0, -⟩ := Option.filter_eq_some_iff.mp h0
      cases h0
      simp only at hend
      omega

/-- **Reverse reading visits the whole file** exactly if the position fits into an `unsigned`,
whatever is left over in the calls. -/
theorem visitsAll_iff (size : Nat) (ilens : Nat → Nat) (hl : ∀ k, ilens k < pipeBuf - 1) :
    VisitsAll size ilens ↔ size < 2 ^ 32 := by
  constructor
  · rintro ⟨ws, hws, hcons, -⟩
    by_contra hle
    exact windows_large (e := size) ilens (if_pos rfl) (by omega) hws hcons
  · intro hlt
    obtain ⟨ws, hws, hcons⟩ := windows_small (e := size) (if_pos rfl) hlt hl
    exact ⟨ws, hws, hcons, fun i hi => hcons.existsUnique hi⟩

theorem visitsAll_example : VisitsAll 10000 fun k => 100 * (k % 2) :=
  (visitsAll_iff 10000 _ fun k => by
    have : k % 2 < 2 := Nat.mod_lt k (by decide)
    unfold pipeBuf
    omega).mpr (by decide)

/-- A file of 4 GiB and 100 bytes: the first window has only 100 bytes, at the start of the file. -/
theorem visitsAll_not : ¬ ∀ (size : Nat) (ilens : Nat → Nat), (∀ k, ilens k < pipeBuf - 1) →
    VisitsAll size ilens := by
  intro h
  obtain ⟨ws, hws, hcons, -⟩ := h (2 ^ 32 + 100) (fun _ => 0) fun _ => by decide
  have hw : some ⟨0, 100⟩ = ws[0]? := hws 0
  cases ws with
  | nil => cases hw
  | cons w ws =>
    cases hw
    exact absurd hcons.1 (by decide)

/-! ## The calls of `read_dynmem_buf` -/

/-- The scan of the file start goes on at the end of the file. -/
theorem readFileStart_offs {σ : Type} {cb : ParseCb σ} {argp : Bool} {file : Str}
    {b b' : ReverseBuf} {a a' : σ} (h : readFileStart cb argp file b a = .ok (none, b', a')) :
    b'.fdOffs = file.length := by
  unfold readFileStart at h
  dsimp only at h
  split at h
  · cases h
  · obtain ⟨ibuf, -, h⟩ := Run.bind_eq_ok.mp h
    split at h
    · cases h
    · obtain ⟨a₁, -, h⟩ := Run.bind_eq_ok.mp h
      obtain ⟨ibuf₁, -, h⟩ := Run.bind_eq_ok.mp h
      cases h
      rfl

/-- A read of no bytes returns `-1`. -/
theorem readWindow_nil {σ : Type} {cb : ParseCb σ} {pmask : PMask} {codeOffs : Ptr} {file : Str}
    {w : Window} {b b' : ReadBuf} {a a' : σ} {ret : Int} (hw : w.len = 0)
    (h : readWindow cb pmask codeOffs file w b a = .ok (ret, b', a')) : ret = -1 := by
  unfold readWindow at h
  obtain ⟨ibuf, -, h⟩ := Run.bind_eq_ok.mp h
  obtain ⟨ibuf₁, -, h⟩ := Run.bind_eq_ok.mp h
  rw [hw, List.take_zero, if_pos rfl] at h
  cases h
  rfl

/-- **A call in reverse mode** whose scan of the file start, if it is due, succeeds: it returns `-1`
if there is no window, and else reads the window. -/
theorem readReverse_requested {σ : Type} {cb : ParseCb σ} {pmask : PMask} {codeOffs : Ptr}
    {argp : Bool} {file : Str} {b b₁ b' : ReverseBuf} {a a₁ a' : σ} {ret : Int}
    (hfst : readStart cb argp file b a = .ok (none, b₁, a₁))
    (h : readReverse cb pmask codeOffs argp file b a = .ok (ret, b', a'))
    (hlen : b.ibuf.length = pipeBuf) :
    b'.fdOffs = nextOffs file.length b.fdOffs b.ilen ∧
      match requested file.length b.fdOffs b.ilen with
      | none => ret = -1
      | some w => readWindow cb pmask codeOffs file w b₁.toReadBuf a₁ = .ok (ret, b'.toReadBuf, a') := by
  have hoffs : b₁.fdOffs = startOffs file.length b.fdOffs := by
    unfold startOffs
    unfold readStart at hfst
    split at hfst
    · rename_i heq
      rw [if_pos heq, readFileStart_offs hfst]
    · rename_i hne
      cases hfst
      rw [if_neg hne]
  have hseek : seekCall file.length b.fdOffs b.ilen = seekWindow b₁.fdOffs b.maxRead := by
    unfold seekCall ReadBuf.maxRead
    rw [hoffs, hlen]
  unfold readReverse at h
  simp only [hfst, bind, Except.bind] at h
  unfold nextOffs requested
  rw [hseek]
  cases hw : seekWindow b₁.fdOffs b.maxRead with
  | none =>
    rw [hw] at h
    cases h
    exact ⟨hoffs, rfl⟩
  | some r =>
    obtain ⟨w, f⟩ := r
    rw [hw] at h
    dsimp only at h
    cases hread : readWindow cb pmask codeOffs file w b₁.toReadBuf a₁ with
    | error f =>
      rw [hread] at h
      cases h
    | ok r =>
      obtain ⟨ret', buf, a₂⟩ := r
      rw [hread] at h
      cases h
      refine ⟨rfl, ?_⟩
      by_cases hpos : 0 < w.len
      · have hf : (some w).filter (0 < ·.len) = some w := by simp [hpos]
        simp only [Option.map_some, hf]
        exact hread
      · have h0 : w.len = 0 := by omega
        have hf : (some w).filter (0 < ·.len) = none := by simp [h0]
        simp only [Option.map_some, hf]
        exact readWindow_nil h0 hread

end Calls

end UgTrain
