import Mathlib.Algebra.Order.Floor.Semifield
import Mathlib.Tactic.Ring

/-!
# Truncated averages

A number that follows a sequence of samples: each sample moves it by one part in `n + 1` of the
way, and what is not whole is dropped.  The number stays between the bounds of the samples.  Under
a constant sample it comes down to the sample from above; from below it stops climbing `n` short
of it, where the step is less than one.

Whether a computation comes to such a point is a matter of a measure that decreases until it
does.

## Main definitions

* `avg n x y` — the number `x` after the sample `y`.

## Main results

* `avg_le`, `le_avg` — the average lies between the number and the sample.
* `avg_lt_left`, `left_lt_avg`, `avg_eq_left` — **when it falls, climbs and stays**.
* `exists_iterate` — a function whose iterates decrease a measure until a point is reached.
-/

namespace TruncatedAverage

/-- The number `x` after the sample `y`, which has the weight of one part in `n + 1`. -/
def avg (n x y : ℕ) : ℕ := (n * x + y) / (n + 1)

variable {n x y b : ℕ}

/-- The average as the integer part of a weighted mean. -/
theorem floor_eq_avg {K : Type*} [Field K] [LinearOrder K] [IsStrictOrderedRing K]
    [FloorSemiring K] (n x y : ℕ) : ⌊((n : K) * x + y) / (n + 1)⌋₊ = avg n x y := by
  rw [avg, ← Nat.floor_div_eq_div (K := K)]
  push_cast
  rfl

theorem avg_le (hx : x ≤ b) (hy : y ≤ b) : avg n x y ≤ b := by
  refine Nat.div_le_of_le_mul ?_
  calc n * x + y ≤ n * b + b := Nat.add_le_add (Nat.mul_le_mul_left n hx) hy
    _ = (n + 1) * b := (Nat.succ_mul n b).symm

theorem le_avg (hx : b ≤ x) (hy : b ≤ y) : b ≤ avg n x y := by
  refine (Nat.le_div_iff_mul_le n.succ_pos).mpr ?_
  calc b * (n + 1) = n * b + b := by ring
    _ ≤ n * x + y := Nat.add_le_add (Nat.mul_le_mul_left n hx) hy

/-- **Above the sample the number falls.** -/
theorem avg_lt_left (h : y < x) : avg n x y < x := by
  refine (Nat.div_lt_iff_lt_mul n.succ_pos).mpr ?_
  calc n * x + y < n * x + x := Nat.add_lt_add_left h _
    _ = x * (n + 1) := by ring

/-- **More than `n` below the sample the number climbs.** -/
theorem left_lt_avg (h : x + n < y) : x < avg n x y := by
  refine (Nat.le_div_iff_mul_le n.succ_pos).mpr ?_
  calc (x + 1) * (n + 1) = n * x + (x + n + 1) := by ring
    _ ≤ n * x + y := Nat.add_le_add_left h _

/-- **In between it stays.** -/
theorem avg_eq_left (h : x ≤ y) (h' : y ≤ x + n) : avg n x y = x := by
  refine le_antisymm (Nat.lt_succ_iff.mp ?_) (le_avg le_rfl h)
  refine (Nat.div_lt_iff_lt_mul n.succ_pos).mpr ?_
  calc n * x + y ≤ n * x + (x + n) := Nat.add_le_add_left h' _
    _ < (x + 1) * (n + 1) := by
      have hring : (x + 1) * (n + 1) = n * x + (x + n) + 1 := by ring
      omega

/-! ### Reaching a point -/

/-- A function whose iterates stay in `Q` and decrease a measure until they are in `P` comes
to `P`. -/
theorem exists_iterate {α : Type*} {f : α → α} {P Q : α → Prop} (m : α → ℕ)
    (h : ∀ a, Q a → P a ∨ Q (f a) ∧ m (f a) < m a) : ∀ a, Q a → ∃ k, P (f^[k] a) := by
  intro a
  induction hm : m a using Nat.strong_induction_on generalizing a with
  | _ n ih =>
    intro ha
    rcases h a ha with hP | ⟨hQ, hlt⟩
    · exact ⟨0, hP⟩
    · obtain ⟨k, hk⟩ := ih (m (f a)) (hm ▸ hlt) (f a) rfl hQ
      exact ⟨k + 1, hk⟩

end TruncatedAverage
