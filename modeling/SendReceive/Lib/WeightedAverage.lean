import Mathlib.Algebra.Order.Field.Basic
import Mathlib.Tactic.GCongr
import Mathlib.Tactic.Linarith
import Mathlib.Tactic.Ring

/-!
# Weighted averages along a sequence

A number that follows a sequence of samples: each sample moves it by the part `w` of the way.  The
weight of what was before a sequence falls by the factor `1 - w` with each sample, and the number
comes as near to the range of the samples as that leaves it.

## Main definitions

* `average w x y` — the number `x` after the sample `y`.
* `averages w x ys` — the number `x` after a sequence of samples.

## Main results

* `averages_sub` — **two numbers that follow the same samples** come together.
* `le_averages`, `averages_le` — **the number comes near to the range of the samples**.
-/

namespace WeightedAverage

section Ring

variable {K : Type*} [CommRing K]

/-- The number `x` after the sample `y`, which has the weight `w`. -/
def average (w x y : K) : K := (1 - w) * x + w * y

/-- The number `x` after a sequence of samples. -/
def averages (w x : K) (ys : List K) : K := ys.foldl (average w) x

@[simp] theorem averages_nil (w x : K) : averages w x [] = x := rfl

@[simp] theorem averages_cons (w x y : K) (ys : List K) :
    averages w x (y :: ys) = averages w (average w x y) ys := rfl

/-- The difference of two numbers after the same sample. -/
theorem average_sub (w x x' y : K) : average w x y - average w x' y = (1 - w) * (x - x') := by
  unfold average
  ring

/-- **Two numbers that follow the same samples** come together. -/
theorem averages_sub (w : K) (ys : List K) : ∀ x x' : K,
    averages w x ys - averages w x' ys = (1 - w) ^ ys.length * (x - x') := by
  induction ys with
  | nil =>
    intro x x'
    simp
  | cons y ys ih =>
    intro x x'
    rw [averages_cons, averages_cons, ih, average_sub, List.length_cons, pow_succ]
    ring

end Ring

section Ordered

variable {K : Type*} [Field K] [LinearOrder K] [IsStrictOrderedRing K] {w a b : K}

/-- A sample that is not below `a` takes the number no further below `a`. -/
theorem le_average (hw : 0 ≤ w) {y : K} (hy : a ≤ y) (x : K) :
    (1 - w) * (x - a) ≤ average w x y - a := by
  have hstep : 0 ≤ w * (y - a) := mul_nonneg hw (sub_nonneg.mpr hy)
  have hsum : average w x y - a = (1 - w) * (x - a) + w * (y - a) := by
    unfold average
    ring
  rw [hsum]
  exact le_add_of_nonneg_right hstep

/-- **The number comes near to the range of the samples** from below. -/
theorem le_averages (hw : 0 ≤ w) (hw' : w ≤ 1) (ys : List K) : ∀ x : K, (∀ y ∈ ys, a ≤ y) →
    a + (1 - w) ^ ys.length * (x - a) ≤ averages w x ys := by
  induction ys with
  | nil =>
    intro x _
    simp
  | cons y ys ih =>
    intro x hall
    have hnext := ih (average w x y) fun z hz => hall z (List.mem_cons_of_mem _ hz)
    have hpow : 0 ≤ (1 - w) ^ ys.length := pow_nonneg (sub_nonneg.mpr hw') _
    calc a + (1 - w) ^ (ys.length + 1) * (x - a)
        = a + (1 - w) ^ ys.length * ((1 - w) * (x - a)) := by ring
      _ ≤ a + (1 - w) ^ ys.length * (average w x y - a) := by
        gcongr
        exact le_average hw (hall y List.mem_cons_self) x
      _ ≤ averages w x (y :: ys) := hnext

/-- **The number comes near to the range of the samples** from above. -/
theorem averages_le (hw : 0 ≤ w) (hw' : w ≤ 1) (ys : List K) (x : K) (hall : ∀ y ∈ ys, y ≤ b) :
    averages w x ys ≤ b + (1 - w) ^ ys.length * (x - b) := by
  -- the same below, for the opposite numbers
  have hneg : ∀ (ys : List K) (x : K), averages w (-x) (ys.map (-·)) = -averages w x ys := by
    intro ys
    induction ys with
    | nil => intro x; rfl
    | cons y ys ih =>
      intro x
      have hstep : average w (-x) (-y) = -average w x y := by
        unfold average
        ring
      rw [List.map_cons, averages_cons, averages_cons, hstep, ih]
  have hbelow := le_averages (a := -b) hw hw' (ys.map (-·)) (-x) fun y hy => by
    obtain ⟨z, hz, rfl⟩ := List.mem_map.mp hy
    exact neg_le_neg (hall z hz)
  rw [hneg, List.length_map] at hbelow
  linarith

end Ordered

end WeightedAverage
