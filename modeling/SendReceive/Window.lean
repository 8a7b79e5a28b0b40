import SendReceive.ClientRun
import SendReceive.Dna

/-!
# The range of the window

A rule computes the next window from the previous one, as a double, and clamps it.  The double is
converted to an `int` first: what does not fit there has no value that could be clamped.

The parameters come from a file and are checked by nobody.  A previous window is always clamped,
so that whether the conversion is safe depends on the parameters only, and it does on the value for
the greatest window.

## Main definitions

* `Whisker.Loadable` — rules that come from a file.
* `ReachableWindow` — the windows that such rules lead to.
* `Whisker.Saturates` — the computation of the window is safe, clamped and monotone.

## Main results

* `Whisker.saturates_iff` — **when it is**.
* `ClientRun.Loaded.exec` — the windows of a client are reachable.
-/

namespace SendReceive

open RegionTree
open Transition (exec)

namespace Whisker

/-- The rule has the action of one that `WhiskerTree( dna )` loads. -/
def Loadable (w : Whisker) : Prop :=
  ∃ dna t, WhiskerTree.ofDNA dna = .ok t ∧ ∃ p ∈ t.leaves, w.action = p.2.action

/-- A file can have any action. -/
theorem loadable_ofDNA (dna : RemyBuffers.Whisker) : (ofDNA dna).Loadable :=
  ⟨.mk none [] (some dna), _, WhiskerTree.ofDNA_eq_ok.mpr (Or.inl ⟨dna, rfl, rfl, rfl⟩), _,
    List.mem_singleton.mpr rfl, rfl⟩

theorem Loadable.of_action {w w' : Whisker} (h : w.Loadable) (heq : w'.action = w.action) :
    w'.Loadable := by
  obtain ⟨dna, t, ht, p, hp, hw⟩ := h
  exact ⟨dna, t, ht, p, hp, heq.trans hw⟩

/-- The number that the window after `previousWindow` is made of. -/
def rawWindow (w : Whisker) (previousWindow : UInt32) : DataType :=
  previousWindow.toNat * w.windowMultiple + w.windowIncrement.toInt

end Whisker

/-- The windows that come from zero by the rules of files. -/
inductive ReachableWindow : UInt32 → Prop
  /-- The window that `Client::run` begins with. -/
  | zero : ReachableWindow 0
  /-- The window that a rule gives. -/
  | next {previousWindow window : UInt32} {w : Whisker} (h : ReachableWindow previousWindow)
      (hw : w.Loadable) (hwindow : w.window previousWindow = .ok window) : ReachableWindow window

namespace Whisker

/-- The computation of the window is safe, its result is clamped, and it keeps the order. -/
structure Saturates (w : Whisker) : Prop where
  /-- The number fits the `int` it is converted to. -/
  fits : ∀ previousWindow, ReachableWindow previousWindow →
    -2 ^ 31 ≤ truncate (w.rawWindow previousWindow) ∧ truncate (w.rawWindow previousWindow) < 2 ^ 31
  /-- The window is the number, truncated and clamped. -/
  clamped : ∀ previousWindow, ReachableWindow previousWindow →
    ∃ window, w.window previousWindow = .ok window ∧
      (window.toNat : ℤ) = min (max 0 (truncate (w.rawWindow previousWindow))) 1000000
  /-- A larger window never gives a smaller one. -/
  monotone : 0 ≤ w.windowMultiple → ∀ previousWindow previousWindow' window window',
    ReachableWindow previousWindow → ReachableWindow previousWindow' →
    previousWindow ≤ previousWindow' → w.window previousWindow = .ok window →
    w.window previousWindow' = .ok window' → window ≤ window'

variable {w : Whisker}

/-- The conversion is defined for the numbers between the bounds of `int`, and what is truncated to
them. -/
theorem fits_iff {x : DataType} :
    (-2 ^ 31 ≤ truncate x ∧ truncate x < 2 ^ 31) ↔ -(2 ^ 31 + 1) < x ∧ x < 2 ^ 31 := by
  have hlow := neg_le_truncate_iff (x := x) (n := 2 ^ 31) (by norm_num)
  have hhigh := truncate_lt_iff (x := x) (n := 2 ^ 31) (by norm_num)
  norm_num at hlow hhigh ⊢
  rw [hlow, hhigh]

/-- **The window is defined** when the number fits. -/
theorem exists_window_iff {previousWindow : UInt32} :
    (∃ window, w.window previousWindow = .ok window) ↔
      -2 ^ 31 ≤ truncate (w.rawWindow previousWindow) ∧
        truncate (w.rawWindow previousWindow) < 2 ^ 31 := by
  constructor
  · rintro ⟨window, hwindow⟩
    obtain ⟨n, hn, -⟩ := bind_eq_ok.mp hwindow
    by_contra hfits
    have hconvert : toInt (w.rawWindow previousWindow) = .error .undefined := if_neg hfits
    cases hconvert.symm.trans hn
  · intro hfits
    have hconvert : toInt (w.rawWindow previousWindow) = .ok _ := if_pos hfits
    unfold rawWindow at hconvert
    rw [window, hconvert, ok_bind]
    exact ⟨_, rfl⟩

theorem toNat_window {previousWindow window : UInt32} (h : w.window previousWindow = .ok window) :
    (window.toNat : ℤ) = min (max 0 (truncate (w.rawWindow previousWindow))) 1000000 := by
  rw [window_eq_ok h]
  exact Int.toNat_of_nonneg (by omega)

end Whisker

/-- **The reachable windows** are those up to the clamp. -/
theorem reachableWindow_iff {window : UInt32} :
    ReachableWindow window ↔ window.toNat ≤ 1000000 := by
  constructor
  · intro h
    cases h with
    | zero => decide
    | next h hw hwindow => exact Whisker.window_le hwindow
  · intro hle
    -- a rule that adds the window to nothing
    let w : Whisker := .ofDNA { windowIncrement := some window.toInt32 }
    have hinc : window.toInt32.toInt = window.toNat := by
      rw [toInt_toInt32, if_pos (by omega)]
    have hraw : truncate (w.rawWindow 0) = window.toNat := by
      have hval : w.rawWindow 0 = (window.toNat : ℤ) := by
        rw [← hinc]
        simp [Whisker.rawWindow, Whisker.ofDNA, w]
      rw [hval, truncate_of_nonneg (by positivity), Int.floor_intCast]
    have hfits : -2 ^ 31 ≤ truncate (w.rawWindow 0) ∧ truncate (w.rawWindow 0) < 2 ^ 31 := by omega
    obtain ⟨window', hwindow⟩ := Whisker.exists_window_iff.mpr hfits
    have heq : window' = window := by
      have hvalue := Whisker.toNat_window hwindow
      rw [← UInt32.toNat_inj]
      omega
    exact heq ▸ .next .zero (Whisker.loadable_ofDNA _) hwindow

namespace Whisker

/-- The number lies between those for the least and the greatest window. -/
theorem rawWindow_between (w : Whisker) {previousWindow : UInt32}
    (h : previousWindow.toNat ≤ 1000000) :
    min (w.windowIncrement.toInt : DataType) (1000000 * w.windowMultiple + w.windowIncrement.toInt)
        ≤ w.rawWindow previousWindow ∧
      w.rawWindow previousWindow
        ≤ max (w.windowIncrement.toInt : DataType)
          (1000000 * w.windowMultiple + w.windowIncrement.toInt) := by
  have hle : (previousWindow.toNat : DataType) ≤ 1000000 := by exact_mod_cast h
  have hpos : (0 : DataType) ≤ previousWindow.toNat := Nat.cast_nonneg _
  unfold rawWindow
  rcases le_total 0 w.windowMultiple with hm | hm
  · have h0 := mul_nonneg hpos hm
    have h1 := mul_le_mul_of_nonneg_right hle hm
    exact ⟨min_le_of_left_le (by linarith), le_max_of_le_right (by linarith)⟩
  · have h0 := mul_nonpos_of_nonneg_of_nonpos hpos hm
    have h1 := mul_le_mul_of_nonpos_right hle hm
    exact ⟨min_le_of_right_le (by linarith), le_max_of_le_left (by linarith)⟩

/-- **When the window saturates**: for rules with which the number for the greatest window fits. -/
theorem saturates_iff (w : Whisker) :
    w.Saturates ↔ -(2 ^ 31 + 1) < 1000000 * w.windowMultiple + w.windowIncrement.toInt ∧
      1000000 * w.windowMultiple + w.windowIncrement.toInt < 2 ^ 31 := by
  constructor
  · intro h
    exact fits_iff.mp (h.fits 1000000 (reachableWindow_iff.mpr le_rfl))
  · rintro ⟨hlow, hhigh⟩
    have hinc : (-2 ^ 31 : DataType) ≤ w.windowIncrement.toInt := by
      exact_mod_cast w.windowIncrement.le_toInt
    have hinc' : (w.windowIncrement.toInt : DataType) < 2 ^ 31 := by
      exact_mod_cast w.windowIncrement.toInt_lt
    have hfits : ∀ previousWindow, ReachableWindow previousWindow →
        -2 ^ 31 ≤ truncate (w.rawWindow previousWindow) ∧
          truncate (w.rawWindow previousWindow) < 2 ^ 31 := by
      intro previousWindow h
      obtain ⟨hge, hle⟩ := w.rawWindow_between (reachableWindow_iff.mp h)
      exact fits_iff.mpr ⟨lt_of_lt_of_le (lt_min (by linarith) hlow) hge,
        lt_of_le_of_lt hle (max_lt hinc' hhigh)⟩
    refine ⟨hfits, fun previousWindow h => ?_, fun hm p p' q q' _ _ hp hq hq' => ?_⟩
    · obtain ⟨window, hwindow⟩ := exists_window_iff.mpr (hfits previousWindow h)
      exact ⟨window, hwindow, toNat_window hwindow⟩
    · have hraw : w.rawWindow p ≤ w.rawWindow p' := by
        have hcast : (p.toNat : DataType) ≤ p'.toNat := by
          exact_mod_cast UInt32.le_iff_toNat_le.mp hp
        exact add_le_add_left (mul_le_mul_of_nonneg_right hcast hm) _
      have htrunc := truncate_mono hraw
      have hv := toNat_window hq
      have hv' := toNat_window hq'
      rw [UInt32.le_iff_toNat_le]
      omega

/-- A rule that multiplies the window by three thousand: for the greatest window the number does not
fit, and C++ says nothing about the result. -/
theorem conversion_undefined :
    let w : Whisker := .ofDNA { windowMultiple := some 3000 }
    w.Loadable ∧ ReachableWindow 1000000 ∧ w.window 1000000 = .error .undefined ∧
      ¬ w.Saturates := by
  refine ⟨loadable_ofDNA _, reachableWindow_iff.mpr le_rfl, by decide +kernel, fun h => ?_⟩
  have hfits := h.fits 1000000 (reachableWindow_iff.mpr le_rfl)
  revert hfits
  decide +kernel

end Whisker

/-! ### The windows of a client -/

namespace ClientRun

/-- What holds of a client with a table from a file. -/
structure Loaded (r : ClientRun) : Prop where
  rules : ∀ p ∈ r.client.whiskers.leaves, p.2.Loadable
  window : ReachableWindow r.client.theWindow.toUInt32

/-- The rule for a memory gives a reachable window, and leaves the actions of the table. -/
theorem loaded_of_usesRule {c : Client} {whiskers : WhiskerTree} {m : Memory} {theWindow : UInt64}
    (hrules : ∀ p ∈ c.whiskers.leaves, p.2.Loadable)
    (hwindow : ReachableWindow c.theWindow.toUInt32) (h : c.UsesRule m whiskers theWindow) :
    (∀ p ∈ whiskers.leaves, p.2.Loadable) ∧ ReachableWindow theWindow.toUInt32 := by
  obtain ⟨w, window, hused, hw, rfl⟩ := h
  obtain ⟨hloadable, hleaves⟩ :=
    WhiskerTree.forall_of_useWhisker (fun _ _ => Whisker.Loadable.of_action) hrules hused
  refine ⟨hleaves, ?_⟩
  rw [UInt32.toUInt32_toUInt64]
  exact .next hwindow hloadable hw

/-- A table that was loaded has loadable rules. -/
theorem loadable_of_leaves {dna : RemyBuffers.WhiskerTree} {whiskers : WhiskerTree}
    (h : WhiskerTree.ofDNA dna = .ok whiskers) : ∀ p ∈ whiskers.leaves, p.2.Loadable :=
  fun p hp => ⟨dna, whiskers, h, p, hp, rfl⟩

theorem Loaded.start {dna : RemyBuffers.WhiskerTree} {whiskers : WhiskerTree}
    (h : WhiskerTree.ofDNA dna = .ok whiskers) (addr : Address) (sock : Socket) (track : Bool) :
    Loaded (start addr sock whiskers track) := by
  rcases start_cases addr sock whiskers track with ⟨why, hstart⟩ | ⟨c, ⟨hused, -⟩, hstart⟩
  · rw [hstart]
    exact ⟨loadable_of_leaves h, .zero⟩
  · rw [hstart]
    obtain ⟨hrules, hwindow⟩ := loaded_of_usesRule (c := .make addr sock whiskers track)
      (loadable_of_leaves h) .zero hused
    exact ⟨hrules, hwindow⟩

/-- **No conversion of a window is undefined** in the runs of a client whose rules saturate. -/
theorem Loaded.exists_window {r : ClientRun} (h : Loaded r) {m : Memory} {w : Whisker}
    {whiskers : WhiskerTree}
    (hrules : ∀ p ∈ r.client.whiskers.leaves, p.2.Saturates)
    (hused : r.client.whiskers.useWhisker m r.client.track = .ok (w, whiskers)) :
    ∃ window, w.window r.client.theWindow.toUInt32 = .ok window := by
  obtain ⟨⟨p, hp, haction⟩, -⟩ := WhiskerTree.useWhisker_actions hused
  obtain ⟨window, hwindow, -⟩ := (hrules p hp).clamped _ h.window
  exact ⟨window, (Whisker.window_eq_of_action haction _).trans hwindow⟩

section Run

variable [Platform] {n : UInt64} {r r' : ClientRun}

theorem Loaded.step {e : Event} (h : Loaded r) (heff : Effect n r e r') : Loaded r' := by
  cases heff with
  | receive hpc hread hp hreceived =>
    obtain ⟨hrules, hwindow⟩ := loaded_of_usesRule h.rules h.window hreceived.window
    exact ⟨hrules, hwindow⟩
  | _ => exact ⟨h.rules, h.window⟩

/-- **The windows of a client with a table from a file are reachable.** -/
theorem Loaded.exec {dna : RemyBuffers.WhiskerTree} {whiskers : WhiskerTree}
    (h : WhiskerTree.ofDNA dna = .ok whiskers) {addr : Address} {sock : Socket} {track : Bool}
    {es : List Event}
    (hrun : exec (ClientRun.step n) (ClientRun.start addr sock whiskers track) es = some r) :
    Loaded r := by
  refine Transition.exec_invariant (Loaded.start h addr sock track) ?_ hrun
  intro _ _ _ ih hstep
  exact ih.step (step_effect hstep)

end Run

end ClientRun

end SendReceive
