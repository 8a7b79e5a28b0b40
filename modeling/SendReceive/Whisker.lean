import SendReceive.MemoryRange
import Mathlib.Tactic.Linarith

/-!
# Whiskers

A whisker is a rule: a domain of memories and the action a sender takes there, that
is how to compute its next window from the previous one and how long to wait
between two packets.

* `OptimizationSetting`, `getOptimizer` — the ranges the optimiser draws actions from.
* `Whisker`, `Whisker.window`, `Whisker.bisect` — rules.
* `Whisker.window_le` — the window never exceeds the clamp.
* `Whisker.one_le_window` — a rule of those ranges that adds a packet opens the window.
-/

namespace SendReceive

/-- `Whisker::OptimizationSetting`. -/
structure OptimizationSetting (T : Type) where
  /-- the smallest the value can be -/
  minValue : T
  /-- the biggest -/
  maxValue : T
  /-- the smallest change to the value in an optimization exploration step -/
  minChange : T
  /-- the biggest change -/
  maxChange : T
  /-- we will explore multiples of the `minChange` until we hit the `maxChange` -/
  multiplier : T
  defaultValue : T

/-- `Whisker::OptimizationSettings`. -/
structure OptimizationSettings where
  windowIncrement : OptimizationSetting UInt32
  windowMultiple : OptimizationSetting DataType
  intersend : OptimizationSetting DataType

/-- `Whisker::get_optimizer`. -/
def getOptimizer : OptimizationSettings where
  windowIncrement := ⟨0, 256, 1, 32, 4, 1⟩
  windowMultiple := ⟨0, 1, 1 / 100, 1 / 2, 4, 1⟩
  intersend := ⟨1 / 4, 3, 1 / 20, 1, 4, 3⟩

/-- `Whisker`. -/
structure Whisker where
  generation : UInt32
  windowIncrement : Int32
  windowMultiple : DataType
  intersend : DataType
  domain : MemoryRange

namespace Whisker

/-- The constructor from an action and a domain. -/
def make (windowIncrement : UInt32) (windowMultiple intersend : DataType)
    (domain : MemoryRange) : Whisker :=
  ⟨0, windowIncrement.toInt32, windowMultiple, intersend, domain⟩

/-- The constructor from a domain, with the default action. -/
def ofDomain (domain : MemoryRange) : Whisker :=
  make getOptimizer.windowIncrement.defaultValue getOptimizer.windowMultiple.defaultValue
    getOptimizer.intersend.defaultValue domain

/-- `Whisker::window`: the next window after `previousWindow`. -/
def window (w : Whisker) (previousWindow : UInt32) : Except Stop UInt32 := do
  let window ← toInt (previousWindow.toNat * w.windowMultiple + w.windowIncrement.toInt)
  return UInt32.ofNat (min (max 0 window) 1000000).toNat

/-- `Whisker::use`. -/
def use (w : Whisker) : Whisker := { w with domain := w.domain.use }

/-- `Whisker::reset_count`. -/
def resetCount (w : Whisker) : Whisker := { w with domain := w.domain.resetCount }

/-- `Whisker::count`. -/
def count (w : Whisker) : UInt32 := w.domain.count

/-- The domain's accumulators receive a query. -/
def track (w : Whisker) (query : Memory) : Whisker := { w with domain := w.domain.track query }

/-- `Whisker::promote`. -/
def promote (w : Whisker) (generation : UInt32) : Whisker :=
  { w with generation := max w.generation generation }

/-- `Whisker::demote`. -/
def demote (w : Whisker) (generation : UInt32) : Whisker := { w with generation := generation }

/-- `Whisker::bisect`: a copy of the rule for each piece of its domain. -/
def bisect [Platform] (w : Whisker) : Except Stop (List Whisker) := do
  return (← w.domain.bisect).map fun x => { w with domain := x }

/-- What a sender sees of a rule: its action and its generation. -/
def action (w : Whisker) : Int32 × DataType × DataType × UInt32 :=
  (w.windowIncrement, w.windowMultiple, w.intersend, w.generation)

/-- The action lies in the ranges of `get_optimizer()`. -/
def InRange (w : Whisker) : Prop :=
  (getOptimizer.windowIncrement.minValue.toNat : ℤ) ≤ w.windowIncrement.toInt ∧
    w.windowIncrement.toInt ≤ getOptimizer.windowIncrement.maxValue.toNat ∧
  getOptimizer.windowMultiple.minValue ≤ w.windowMultiple ∧
    w.windowMultiple ≤ getOptimizer.windowMultiple.maxValue ∧
  getOptimizer.intersend.minValue ≤ w.intersend ∧ w.intersend ≤ getOptimizer.intersend.maxValue

instance (w : Whisker) : Decidable w.InRange :=
  inferInstanceAs (Decidable (_ ∧ _ ∧ _ ∧ _ ∧ _ ∧ _))

/-! ### The window -/

theorem window_eq_of_action {w w' : Whisker} (h : w'.action = w.action) (previousWindow : UInt32) :
    w'.window previousWindow = w.window previousWindow := by
  simp only [action, Prod.mk.injEq] at h
  rw [window, window, h.1, h.2.1]

theorem intersend_eq_of_action {w w' : Whisker} (h : w'.action = w.action) :
    w'.intersend = w.intersend := by
  simp only [action, Prod.mk.injEq] at h
  exact h.2.2.1

theorem window_eq_ok {w : Whisker} {previousWindow v : UInt32}
    (h : w.window previousWindow = .ok v) :
    v.toNat = (min (max 0 (truncate
      (previousWindow.toNat * w.windowMultiple + w.windowIncrement.toInt))) 1000000).toNat := by
  obtain ⟨n, hn, hv⟩ := bind_eq_ok.mp h
  rw [toInt] at hn
  split at hn
  · obtain rfl := Except.ok.inj hn
    obtain rfl := Except.ok.inj hv
    have hsize : UInt32.size = 4294967296 := rfl
    rw [UInt32.toNat_ofNat_of_lt' (by omega)]
  · cases hn

/-- **The window never exceeds the clamp.** -/
theorem window_le {w : Whisker} {previousWindow v : UInt32} (h : w.window previousWindow = .ok v) :
    v.toNat ≤ 1000000 := by
  rw [window_eq_ok h]
  omega

/-- A rule whose action is in range and adds a packet gives a window of at least one. -/
theorem one_le_window {w : Whisker} (hw : w.InRange) (hinc : 1 ≤ w.windowIncrement.toInt)
    {previousWindow v : UInt32} (h : w.window previousWindow = .ok v) : 1 ≤ v.toNat := by
  have hmul : (0 : DataType) ≤ previousWindow.toNat * w.windowMultiple :=
    mul_nonneg (Nat.cast_nonneg _) hw.2.2.1
  have hval : ((1 : ℤ) : DataType)
      ≤ previousWindow.toNat * w.windowMultiple + w.windowIncrement.toInt := by
    have : ((1 : ℤ) : DataType) ≤ (w.windowIncrement.toInt : DataType) := by exact_mod_cast hinc
    linarith
  have htrunc := le_truncate (by norm_num) hval
  rw [window_eq_ok h]
  omega

/-- Being in range is a matter of the action. -/
theorem InRange.of_action {w w' : Whisker} (hw : w.InRange) (h : w'.action = w.action) :
    w'.InRange := by
  simp only [action, Prod.mk.injEq] at h
  unfold InRange
  rw [h.1, h.2.1, h.2.2.1]
  exact hw

end Whisker

end SendReceive
