import Mathlib.Algebra.Order.Field.Basic
import Mathlib.Data.Set.Prod
import Mathlib.Order.Interval.Set.Basic

/-!
# Half-open boxes and their bisection

The half-open box between two points `l` and `u` of a product of linear orders
holds the points `x` with `l i ≤ x i < u i` on every axis `i`.  Cutting a box at a
value `p` of one axis leaves the box below the cut, whose upper corner has `p` on
that axis, and the box above it, whose lower corner has `p`.

## Main results

* `mem_box_cut` — for a cut inside the closed range of its axis the two pieces
  cover the box.
* `not_mem_box_cut_both` — the two pieces are disjoint, wherever the cut lies.
* `midpoint_mem_box` — a box that is not empty contains its midpoint.
-/

namespace HalfOpenBox

variable {ι α : Type*}

/-- The half-open box with lower corner `l` and upper corner `u`. -/
def box [Preorder α] (l u : ι → α) : Set (ι → α) := Set.univ.pi fun i => Set.Ico (l i) (u i)

theorem mem_box [Preorder α] {l u x : ι → α} : x ∈ box l u ↔ ∀ i, l i ≤ x i ∧ x i < u i := by
  simp [box]

section Cut

variable [DecidableEq ι] [LinearOrder α] {l u x : ι → α} {i : ι} {p : α}

/-- The piece below the cut: the points of the box below `p` on axis `i`. -/
theorem mem_box_below (hp : p ≤ u i) :
    x ∈ box l (Function.update u i p) ↔ x ∈ box l u ∧ x i < p := by
  rw [mem_box, mem_box]
  constructor
  · intro h
    have hi : x i < p := by simpa using (h i).2
    -- on the axis that is cut the old bound follows from `p`, on the others it is the same
    refine ⟨fun j => ⟨(h j).1, ?_⟩, hi⟩
    rcases eq_or_ne j i with rfl | hji
    · exact lt_of_lt_of_le hi hp
    · simpa [hji] using (h j).2
  · rintro ⟨h, hi⟩ j
    refine ⟨(h j).1, ?_⟩
    rcases eq_or_ne j i with rfl | hji
    · simpa using hi
    · simpa [hji] using (h j).2

/-- The piece above the cut: the points of the box from `p` on on axis `i`. -/
theorem mem_box_above (hp : l i ≤ p) :
    x ∈ box (Function.update l i p) u ↔ x ∈ box l u ∧ p ≤ x i := by
  rw [mem_box, mem_box]
  constructor
  · intro h
    have hi : p ≤ x i := by simpa using (h i).1
    refine ⟨fun j => ⟨?_, (h j).2⟩, hi⟩
    rcases eq_or_ne j i with rfl | hji
    · exact le_trans hp hi
    · simpa [hji] using (h j).1
  · rintro ⟨h, hi⟩ j
    refine ⟨?_, (h j).2⟩
    rcases eq_or_ne j i with rfl | hji
    · simpa using hi
    · simpa [hji] using (h j).1

/-- **The pieces of a cut cover the box** and nothing else, once the cut lies in
the closed range of its axis. -/
theorem mem_box_cut (hl : l i ≤ p) (hu : p ≤ u i) :
    x ∈ box l u ↔ x ∈ box l (Function.update u i p) ∨ x ∈ box (Function.update l i p) u := by
  rw [mem_box_below hu, mem_box_above hl, ← and_or_left]
  exact (and_iff_left (lt_or_ge (x i) p)).symm

/-- The pieces of a cut are disjoint. -/
theorem not_mem_box_cut_both :
    ¬ (x ∈ box l (Function.update u i p) ∧ x ∈ box (Function.update l i p) u) := by
  rintro ⟨hbelow, habove⟩
  have h1 : x i < p := by simpa using (mem_box.mp hbelow i).2
  have h2 : p ≤ x i := by simpa using (mem_box.mp habove i).1
  exact absurd h1 (not_lt.mpr h2)

end Cut

section Midpoint

variable [Field α] [LinearOrder α] [IsStrictOrderedRing α] {l u : ι → α}

theorem midpoint_mem_Ico {a b : α} (h : a < b) : a < (a + b) / 2 ∧ (a + b) / 2 < b :=
  ⟨left_lt_add_div_two.mpr h, add_div_two_lt_right.mpr h⟩

/-- A box with room on every axis contains its midpoint. -/
theorem midpoint_mem_box (h : ∀ i, l i < u i) : (fun i => (l i + u i) / 2) ∈ box l u :=
  mem_box.mpr fun i => ⟨(midpoint_mem_Ico (h i)).1.le, (midpoint_mem_Ico (h i)).2⟩

end Midpoint

end HalfOpenBox
