import SendReceive.MemoryRange
import Mathlib.Data.List.GetD

/-!
# What bisection returns

`bisect` cuts a range at the median of its queries on one axis after the other.  Where a
median is the lower bound of its axis the sources try the midpoint instead, but what they
compare is a corner of the piece with a corner that agrees with it on one axis only; and
the estimate of an accumulator that received few samples is zero, which need not lie in the
range at all.

A piece that has room on every axis is always cut at the median.  The pieces found on the
way are followed here through the loop, down to one that is empty or that leaves the range.

## Main definitions

* `Piece` — the pieces the loop of `bisect` finds.
* `memories` — the memories of a range.
* `BisectsProperly`, `BisectsInside` — the pieces have room and are smaller; they stay inside.
* `PSquare` — what the accumulators of Boost answer.

## Main results

* `bisect_eq_ok` — bisecting a range with room on every axis returns its pieces.
* `exists_kept` — one of them has room on every axis.
* `bisects_properly_iff` — **when the pieces have room and are smaller**.
* `bisects_inside_iff` — **when the pieces stay inside the range**.
-/

namespace SendReceive

open Memory (datasize)

namespace MemoryRange

/-! ### The memories of a range -/

section Memories

variable {r : MemoryRange} {i : Fin datasize}

/-- The memories of a range. -/
def memories (r : MemoryRange) : Set Memory := {m | r.contains m}

/-- The memories of a range are some of another's, but not all of them. -/
def StrictlySmaller (x r : MemoryRange) : Prop :=
  x.memories ⊆ r.memories ∧ ∃ m ∈ r.memories, m ∉ x.memories

theorem lower_mem_memories (hr : r.Nonempty) : r.lower ∈ r.memories := by
  show r.contains r.lower
  rw [contains_iff_mem_box, HalfOpenBox.mem_box]
  exact fun j => ⟨le_rfl, hr j⟩

/-- The lower corner, moved on one axis to a value of the range. -/
theorem lower_setField_mem_memories (hr : r.Nonempty) {v : DataType} (hl : r.lower.field i ≤ v)
    (hu : v < r.upper.field i) : r.lower.setField i v ∈ r.memories := by
  show r.contains _
  rw [contains_iff_mem_box, HalfOpenBox.mem_box, Memory.field_setField]
  intro j
  rw [Function.update_apply]
  split
  · rename_i hj
    rw [hj]
    exact ⟨hl, hu⟩
  · exact ⟨le_rfl, hr j⟩

/-- A range misses what lies outside its bounds on an axis. -/
theorem not_mem_memories {m : Memory}
    (h : m.field i < r.lower.field i ∨ r.upper.field i ≤ m.field i) : m ∉ r.memories := by
  intro hm
  have hbox : r.contains m := hm
  rw [contains_iff_mem_box, HalfOpenBox.mem_box] at hbox
  rcases h with hlow | hhigh
  · exact absurd (hbox i).1 (not_le.mpr hlow)
  · exact absurd (hbox i).2 (not_lt.mpr hhigh)

end Memories

/-! ### The pieces -/

section Pieces

variable [Platform] {r x y : MemoryRange} {i : Fin datasize} {k : ℕ}

/-- The pieces that the loop of `bisect` has found after the axes below `k`. -/
inductive Piece (r : MemoryRange) : ℕ → MemoryRange → Prop
  | start : Piece r 0 r
  | cut {i : Fin datasize} {x y : MemoryRange} (hx : Piece r i x) (hy : y ∈ r.halves i x) :
      Piece r (i + 1) y

/-- A piece has not been cut on the axes that are left. -/
theorem Piece.bounds (h : Piece r k x) :
    ∀ j : Fin datasize, k ≤ j →
      x.lower.field j = r.lower.field j ∧ x.upper.field j = r.upper.field j := by
  induction h with
  | start => exact fun j _ => ⟨rfl, rfl⟩
  | @cut i x y hx hy ih =>
    intro j hj
    have huncut : r.Uncut i x := fun j hj => ih j hj
    exact uncut_of_mem_halves huncut hy (Fin.lt_def.mpr hj) j le_rfl

theorem Piece.uncut (h : Piece r i x) : r.Uncut i x := fun j hj => h.bounds j hj

theorem piece_succ_iff : Piece r (i + 1) y ↔ ∃ x, Piece r i x ∧ y ∈ r.halves i x := by
  constructor
  · intro h
    generalize hk : (i : ℕ) + 1 = k at h
    cases h with
    | start => cases hk
    | @cut j x y hx hy =>
      obtain rfl : i = j := Fin.ext (Nat.succ.inj hk)
      exact ⟨x, hx, hy⟩
  · rintro ⟨x, hx, hy⟩
    exact .cut hx hy

/-- Cutting goes on to the last axis, and leaves the bounds on the axes before alone. -/
theorem Piece.extend (h : Piece r k x) (hk : k ≤ datasize) :
    ∃ y, Piece r datasize y ∧ ∀ j : Fin datasize, (j : ℕ) < k →
      y.lower.field j = x.lower.field j ∧ y.upper.field j = x.upper.field j := by
  induction hd : datasize - k generalizing k x with
  | zero =>
    obtain rfl : k = datasize := by omega
    exact ⟨x, h, fun j _ => ⟨rfl, rfl⟩⟩
  | succ d ih =>
    let i : Fin datasize := ⟨k, by omega⟩
    -- either half would do
    let below := make x.lower (x.upper.setField i (r.bisectPoint i x))
    have hbelow : Piece r (k + 1) below := .cut (i := i) h List.mem_cons_self
    obtain ⟨y, hy, hbounds⟩ := ih hbelow (by omega) (by omega)
    refine ⟨y, hy, fun j hj => ?_⟩
    obtain ⟨hl, hu⟩ := hbounds j (by omega)
    have hne : j ≠ i := Fin.ne_of_val_ne (Nat.ne_of_lt hj)
    refine ⟨hl, hu.trans ?_⟩
    show (x.upper.setField i _).field j = _
    rw [Memory.field_setField, Function.update_of_ne hne]

/-- **Bisecting a range with room on every axis returns its pieces.** -/
theorem bisect_eq_ok (hr : r.Nonempty) :
    ∃ ret, r.bisect = .ok ret ∧ ∀ y, y ∈ ret ↔ Piece r datasize y := by
  refine bisect_loop (P := fun k ret => ∀ y, y ∈ ret ↔ Piece r k y) ?_ ?_ ?_
  · intro y
    rw [List.mem_singleton]
    constructor
    · rintro rfl
      exact .start
    · intro h
      generalize hk : 0 = k at h
      cases h with
      | start => rfl
      | cut => cases hk
  · intro i ret hret
    refine ⟨_, doubled_eq_ok hr fun x hx => ((hret x).mp hx).uncut, fun y => ?_⟩
    rw [List.mem_flatMap, piece_succ_iff]
    exact exists_congr fun x => and_congr_left' (hret x)
  · intro ret hret
    obtain ⟨y, hy, -⟩ := (Piece.start : Piece r 0 r).extend (Nat.zero_le _)
    exact List.ne_nil_of_mem ((hret y).mpr hy)

/-! ### Pieces with room on every axis -/

/-- **A piece with room on every axis is cut at the median**: wherever the median lies, the corners
that are compared differ on an axis that is not cut. -/
theorem bisectPoint_of_nonempty (hx : x.Nonempty) :
    r.bisectPoint i x = Platform.median (r.acc i) := by
  apply if_neg
  intro h
  rw [Memory.opEq_iff, Memory.field_setField] at h
  have haxes : ∀ i : Fin datasize, ∃ j : Fin datasize, j ≠ 1 ∧ j ≠ i := by decide
  obtain ⟨j, hj, hji⟩ := haxes i
  have hself := h j hj
  rw [Function.update_of_ne hji] at hself
  exact absurd hself (hx j).ne

/-- The half below the median. -/
def below (r : MemoryRange) (i : Fin datasize) (x : MemoryRange) : MemoryRange :=
  make x.lower (x.upper.setField i (Platform.median (r.acc i)))

/-- The half from the median on. -/
def above (r : MemoryRange) (i : Fin datasize) (x : MemoryRange) : MemoryRange :=
  make (x.lower.setField i (Platform.median (r.acc i))) x.upper

theorem halves_of_nonempty (hx : x.Nonempty) : r.halves i x = [r.below i x, r.above i x] := by
  rw [halves, bisectPoint_of_nonempty hx]
  rfl

theorem upper_below (j : Fin datasize) :
    (r.below i x).upper.field j = if j = i then Platform.median (r.acc i) else x.upper.field j := by
  rw [below, make, Memory.field_setField, Function.update_apply]

theorem lower_above (j : Fin datasize) :
    (r.above i x).lower.field j = if j = i then Platform.median (r.acc i) else x.lower.field j := by
  rw [above, make, Memory.field_setField, Function.update_apply]

/-- The half below a median above the lower bound has room. -/
theorem nonempty_below (hx : x.Nonempty) (h : x.lower.field i < Platform.median (r.acc i)) :
    (r.below i x).Nonempty := by
  intro j
  rw [upper_below]
  split
  · rename_i hj
    rw [hj]
    exact h
  · exact hx j

/-- The half from a median below the upper bound on has room. -/
theorem nonempty_above (hx : x.Nonempty) (h : Platform.median (r.acc i) < x.upper.field i) :
    (r.above i x).Nonempty := by
  intro j
  rw [lower_above]
  split
  · rename_i hj
    rw [hj]
    exact h
  · exact hx j

/-- A piece with room on every axis: on each axis below `k` it goes from the median to the upper
bound of the range, or from the lower bound to a median beyond the upper one. -/
structure Kept (r : MemoryRange) (k : ℕ) (x : MemoryRange) : Prop where
  piece : Piece r k x
  room : x.Nonempty
  cut : ∀ j : Fin datasize, (j : ℕ) < k →
    if Platform.median (r.acc j) < r.upper.field j then
      x.lower.field j = Platform.median (r.acc j) ∧ x.upper.field j = r.upper.field j
    else x.lower.field j = r.lower.field j ∧ x.upper.field j = Platform.median (r.acc j)

/-- One of the halves has room. -/
theorem Kept.step (h : Kept r i x) : ∃ y, Kept r (i + 1) y := by
  obtain ⟨hl, hu⟩ := h.piece.bounds i le_rfl
  by_cases hmed : Platform.median (r.acc i) < r.upper.field i
  · refine ⟨r.above i x, ?_, nonempty_above h.room (hu ▸ hmed), fun j hj => ?_⟩
    · apply Piece.cut h.piece
      rw [halves_of_nonempty h.room]
      exact List.mem_cons_of_mem _ List.mem_cons_self
    · rw [lower_above]
      rcases eq_or_ne j i with rfl | hne
      · rw [if_pos hmed, if_pos rfl]
        exact ⟨rfl, hu⟩
      · rw [if_neg hne]
        exact h.cut j (lt_of_le_of_ne (Nat.lt_succ_iff.mp hj) (Fin.val_ne_of_ne hne))
  · have hlow : x.lower.field i < Platform.median (r.acc i) :=
      lt_of_lt_of_le (h.room i) (hu ▸ not_lt.mp hmed)
    refine ⟨r.below i x, ?_, nonempty_below h.room hlow, fun j hj => ?_⟩
    · apply Piece.cut h.piece
      rw [halves_of_nonempty h.room]
      exact List.mem_cons_self
    · rw [upper_below]
      rcases eq_or_ne j i with rfl | hne
      · rw [if_neg hmed, if_pos rfl]
        exact ⟨hl, rfl⟩
      · rw [if_neg hne]
        exact h.cut j (lt_of_le_of_ne (Nat.lt_succ_iff.mp hj) (Fin.val_ne_of_ne hne))

/-- **There is always a piece with room on every axis.** -/
theorem exists_kept (hr : r.Nonempty) (hk : k ≤ datasize) : ∃ x, Kept r k x := by
  induction k with
  | zero => exact ⟨r, .start, hr, fun j hj => absurd hj (Nat.not_lt_zero _)⟩
  | succ k ih =>
    obtain ⟨x, hx⟩ := ih (by omega)
    exact Kept.step (i := ⟨k, by omega⟩) hx

/-! ### Progress -/

/-- Bisection makes progress: each piece has room on every axis and is strictly smaller than the
range, and on the axes whose median is the lower bound it was cut at the midpoint. -/
def BisectsProperly (r : MemoryRange) : Prop :=
  ∃ ret, r.bisect = .ok ret ∧ ∀ x ∈ ret, x.Nonempty ∧ x.StrictlySmaller r ∧
    ∀ i, Platform.median (r.acc i) = r.lower.field i →
      x.lower.field i = r.rangeMedian.field i ∨ x.upper.field i = r.rangeMedian.field i

/-- The median of each axis lies in its half-open interval. -/
def MediansBelowUpper (r : MemoryRange) : Prop :=
  ∀ i, r.lower.field i ≤ Platform.median (r.acc i) ∧ Platform.median (r.acc i) < r.upper.field i

theorem MediansBelowUpper.inRange (h : r.MediansBelowUpper) : r.MediansInRange :=
  fun i => ⟨(h i).1, (h i).2.le⟩

/-- Between medians inside the range all pieces have room. -/
theorem Piece.nonempty (hr : r.Nonempty) (hmed : r.MediansBelowUpper)
    (hne : ∀ i, Platform.median (r.acc i) ≠ r.lower.field i) (h : Piece r k x) : x.Nonempty := by
  induction h with
  | start => exact hr
  | @cut i x y hx hy ih =>
    obtain ⟨hl, hu⟩ := hx.bounds i le_rfl
    rw [halves_of_nonempty ih] at hy
    rcases List.mem_pair.mp hy with rfl | rfl
    · exact nonempty_below ih (hl ▸ lt_of_le_of_ne (hmed i).1 (hne i).symm)
    · exact nonempty_above ih (hu ▸ (hmed i).2)

/-- A piece that was cut inside the range misses a memory of it. -/
theorem Piece.exists_not_mem (hr : r.Nonempty) (hmed : r.MediansBelowUpper)
    (hne : Platform.median (r.acc i) ≠ r.lower.field i) (hx : x.Nonempty)
    (hy : y ∈ r.halves i x) : ∃ m ∈ r.memories, m ∉ y.memories := by
  rw [halves_of_nonempty hx] at hy
  rcases List.mem_pair.mp hy with rfl | rfl
  · refine ⟨_, lower_setField_mem_memories hr (hmed i).1 (hmed i).2, not_mem_memories (i := i) ?_⟩
    right
    rw [upper_below, if_pos rfl, Memory.field_setField, Function.update_self]
  · refine ⟨_, lower_mem_memories hr, not_mem_memories (i := i) ?_⟩
    left
    rw [lower_above, if_pos rfl]
    exact lt_of_le_of_ne (hmed i).1 hne.symm

/-- A piece that was cut at the lower bound of an axis has no room there. -/
theorem exists_piece_not_nonempty (hr : r.Nonempty)
    (heq : Platform.median (r.acc i) = r.lower.field i) :
    ∃ y, Piece r datasize y ∧ ¬ y.Nonempty := by
  obtain ⟨x, hx⟩ := exists_kept (k := i) hr i.isLt.le
  have hbelow : Piece r (i + 1) (r.below i x) := by
    apply Piece.cut hx.piece
    rw [halves_of_nonempty hx.room]
    exact List.mem_cons_self
  obtain ⟨y, hy, hbounds⟩ := hbelow.extend i.isLt
  refine ⟨y, hy, fun hroom => ?_⟩
  obtain ⟨hl, hu⟩ := hbounds i (Nat.lt_succ_self _)
  have hlower : y.lower.field i = r.lower.field i := hl.trans (hx.piece.bounds i le_rfl).1
  rw [upper_below, if_pos rfl, heq] at hu
  exact absurd (hroom i) (by rw [hlower, hu]; exact lt_irrefl _)

/-- **When bisection makes progress**: no median is the lower bound of its axis. -/
theorem bisects_properly_iff (hr : r.Nonempty) (hmed : r.MediansBelowUpper) :
    r.BisectsProperly ↔ ∀ i, Platform.median (r.acc i) ≠ r.lower.field i := by
  obtain ⟨ret, hret, hpieces⟩ := bisect_eq_ok hr
  constructor
  · rintro ⟨ret', hret', h⟩ i heq
    obtain rfl : ret = ret' := Except.ok.inj (hret.symm.trans hret')
    obtain ⟨y, hy, hroom⟩ := exists_piece_not_nonempty hr heq
    exact hroom (h y ((hpieces y).mpr hy)).1
  · intro hne
    refine ⟨ret, hret, fun y hy => ?_⟩
    have hpiece : Piece r datasize y := (hpieces y).mp hy
    obtain ⟨ret', hret', hsplit⟩ := bisect_splits hmed.inRange hr
    obtain rfl : ret = ret' := Except.ok.inj (hret.symm.trans hret')
    have hsub : y.memories ⊆ r.memories := fun m hm => hsplit.contains_of_mem hy hm
    -- the last cut leaves a memory of the range out
    obtain ⟨x, hx, hyx⟩ := (piece_succ_iff (i := 3)).mp hpiece
    have hmiss := Piece.exists_not_mem hr hmed (hne 3) (hx.nonempty hr hmed hne) hyx
    exact ⟨hpiece.nonempty hr hmed hne, ⟨hsub, hmiss⟩, fun i heq => absurd heq (hne i)⟩

end Pieces

/-- The range of memories whose fields lie between two values. -/
def cube (lower upper : DataType) : MemoryRange :=
  make (.ofData lower lower lower lower) (.ofData upper upper upper upper)

theorem nonempty_cube {lower upper : DataType} (h : lower < upper) :
    (cube lower upper).Nonempty := by
  intro i
  fin_cases i <;> exact h

theorem bisects_properly_iff_of_cube :
    letI := gcc48
    ([.ofData 1 1 1 1, .ofData 1 1 1 1, .ofData 1 1 1 1].foldl track
      (cube 0 2)).BisectsProperly := by
  let _ := gcc48
  refine (bisects_properly_iff ?_ ?_).mpr ?_
  · exact nonempty_cube (by decide)
  · intro i
    fin_cases i <;> decide
  · intro i
    fin_cases i <;> decide

/-- The range of the default rule after a query of a fresh memory, whose medians are all zero. -/
theorem bisects_into_empty :
    letI := gcc48
    let r := (cube 0 163840).track .init
    r.Nonempty ∧ r.MediansBelowUpper ∧ ¬ r.BisectsProperly := by
  let _ := gcc48
  intro r
  refine ⟨nonempty_cube (by decide), ?_, ?_⟩
  · intro i
    fin_cases i <;> decide
  · rintro ⟨ret, hret, h⟩
    have hempty : r.bisect.map (·.any fun x => decide (x.upper.field 0 ≤ x.lower.field 0))
        = .ok true := by
      decide +kernel
    rw [hret] at hempty
    obtain ⟨x, hx, hle⟩ := List.any_eq_true.mp (Except.ok.inj hempty)
    exact absurd ((h x hx).1 0) (not_lt.mpr (of_decide_eq_true hle))

/-! ### Staying inside -/

/-- Bisection stays inside: no piece holds a memory that the range does not hold. -/
def BisectsInside [Platform] (r : MemoryRange) : Prop :=
  ∃ ret, r.bisect = .ok ret ∧ ∀ x ∈ ret, x.memories ⊆ r.memories

/-- What the accumulators of Boost answer: the third of five heights.  These are zero at first, the
first five samples are stored in them in turn, and the five are sorted at the fifth; from then on
the answer lies between two of the samples. -/
structure PSquare (median : Accumulator → DataType) : Prop where
  few : ∀ samples : Accumulator, samples.length < 5 → median samples = samples.getD 2 0
  five : ∀ samples : Accumulator, samples.length = 5 →
    median samples = (samples.mergeSort (· ≤ ·)).getD 2 0
  many : ∀ samples : Accumulator, 5 ≤ samples.length →
    ∃ lo ∈ samples, ∃ hi ∈ samples, lo ≤ median samples ∧ median samples ≤ hi

namespace PSquare

variable {median : Accumulator → DataType} {samples : Accumulator}

/-- With one sample or two the third height is still zero. -/
theorem median_eq_zero (h : PSquare median) (hlen : samples.length < 3) : median samples = 0 := by
  rw [h.few samples (by omega), List.getD_eq_default _ _ (by omega)]

/-- From the third sample on the answer lies where the samples do. -/
theorem median_mem (h : PSquare median) (hlen : 3 ≤ samples.length) {a b : DataType}
    (hsamples : ∀ v ∈ samples, a ≤ v ∧ v < b) : a ≤ median samples ∧ median samples < b := by
  rcases Nat.lt_or_ge samples.length 5 with hlt | hge
  · rw [h.few samples hlt, List.getD_eq_getElem _ _ (by omega)]
    exact hsamples _ (List.getElem_mem _)
  · obtain ⟨lo, hlo, hi, hhi, hle, hge⟩ := h.many samples hge
    exact ⟨le_trans (hsamples lo hlo).1 hle, lt_of_le_of_lt hge (hsamples hi hhi).2⟩

/-- The estimator of the platform, as far as it is ever evaluated. -/
theorem of_gcc48 : PSquare gcc48.median where
  few samples h := if_pos h
  five samples h := by
    show (if samples.length < 5 then _ else _) = _
    rw [if_neg (by omega), List.take_of_length_le (by omega)]
  many samples h := by
    have hlen : 2 < ((samples.take 5).mergeSort (· ≤ ·)).length := by
      rw [List.length_mergeSort, List.length_take]
      omega
    have hmem : ((samples.take 5).mergeSort (· ≤ ·)).getD 2 0 ∈ samples := by
      rw [List.getD_eq_getElem _ _ hlen]
      exact List.mem_of_mem_take (List.mem_mergeSort.mp (List.getElem_mem _))
    refine ⟨_, hmem, _, hmem, ?_⟩
    show _ ≤ (if samples.length < 5 then _ else _) ∧ (if samples.length < 5 then _ else _) ≤ _
    rw [if_neg (by omega)]
    exact ⟨le_rfl, le_rfl⟩

end PSquare

/-- Tracking is all that happens to a range. -/
theorem foldl_track (r : MemoryRange) (ms : List Memory) :
    ms.foldl track r = { r with acc := fun i => r.acc i ++ ms.map (·.field i) } := by
  induction ms generalizing r with
  | nil =>
    simp only [List.foldl_nil, List.map_nil, List.append_nil]
  | cons m ms ih =>
    rw [List.foldl_cons, ih]
    simp only [track, List.append_assoc, List.map_cons, List.singleton_append]

section Inside

variable [Platform] {r : MemoryRange} {i : Fin datasize} {ms : List Memory}

/-- When the medians lie in the closed range, bisection stays inside. -/
theorem bisectsInside_of_mediansInRange (hr : r.Nonempty) (hmed : r.MediansInRange) :
    r.BisectsInside := by
  obtain ⟨ret, hret, hsplit⟩ := bisect_splits hmed hr
  exact ⟨ret, hret, fun x hx m hm => hsplit.contains_of_mem hx hm⟩

/-- **When bisection stays inside**: no median lies beyond the bounds of its axis. -/
theorem bisectsInside_iff_mediansInRange (hr : r.Nonempty) :
    r.BisectsInside ↔ r.MediansInRange := by
  constructor
  · rintro ⟨ret, hret, hinside⟩ i
    obtain ⟨ret', hret', hpieces⟩ := bisect_eq_ok hr
    obtain rfl : ret = ret' := Except.ok.inj (hret.symm.trans hret')
    -- a piece with room reaches as far as the median does
    obtain ⟨x, hx⟩ := exists_kept (r := r) (k := datasize) hr le_rfl
    have hsub : x.memories ⊆ r.memories := hinside x ((hpieces x).mpr hx.piece)
    have hcut := hx.cut i i.isLt
    split at hcut
    · rename_i hlt
      refine ⟨?_, hlt.le⟩
      by_contra hlow
      refine not_mem_memories (i := i) (Or.inl ?_) (hsub (lower_mem_memories hx.room))
      rw [hcut.1]
      exact not_le.mp hlow
    · rename_i hge
      refine ⟨le_trans (hr i).le (not_lt.mp hge), ?_⟩
      by_contra hhigh
      have hmem : x.lower.setField i (r.upper.field i) ∈ x.memories := by
        refine lower_setField_mem_memories hx.room ?_ ?_
        · rw [hcut.1]
          exact (hr i).le
        · rw [hcut.2]
          exact not_le.mp hhigh
      refine not_mem_memories (i := i) (Or.inr ?_) (hsub hmem)
      rw [Memory.field_setField, Function.update_self]
  · exact bisectsInside_of_mediansInRange hr

/-- **When bisection stays inside the range whatever has been tracked**: at least three queries have
been, or zero lies in the closed range on every axis. -/
theorem bisects_inside_iff (hboost : PSquare Platform.median) (hr : r.Nonempty)
    (hfresh : ∀ i, r.acc i = []) (hms : ∀ m ∈ ms, r.contains m) :
    (ms.foldl track r).BisectsInside ↔
      3 ≤ ms.length ∨ ∀ i, r.lower.field i ≤ 0 ∧ 0 ≤ r.upper.field i := by
  have hacc : ∀ i, (ms.foldl track r).acc i = ms.map (·.field i) := fun i => by
    rw [foldl_track]
    show r.acc i ++ _ = _
    rw [hfresh i, List.nil_append]
  have hsame : (ms.foldl track r).SameBounds r := fun i => by
    rw [foldl_track]
    exact ⟨rfl, rfl⟩
  rw [bisectsInside_iff_mediansInRange (hsame.symm.nonempty hr)]
  have hmedians : (ms.foldl track r).MediansInRange ↔ ∀ i,
      r.lower.field i ≤ Platform.median (ms.map (·.field i)) ∧
        Platform.median (ms.map (·.field i)) ≤ r.upper.field i := by
    apply forall_congr'
    intro i
    rw [(hsame i).1, (hsame i).2, hacc]
  rw [hmedians]
  rcases Nat.lt_or_ge ms.length 3 with hfew | hmany
  · have hzero : ∀ i, Platform.median (ms.map (·.field i)) = 0 := fun i =>
      hboost.median_eq_zero (by rw [List.length_map]; exact hfew)
    simp only [hzero]
    exact (or_iff_right (not_le.mpr hfew)).symm
  · refine iff_of_true (fun i => ?_) (Or.inl hmany)
    have hin : ∀ v ∈ ms.map (·.field i), r.lower.field i ≤ v ∧ v < r.upper.field i := by
      intro v hv
      obtain ⟨m, hm, rfl⟩ := List.mem_map.mp hv
      have hbox := hms m hm
      rw [contains_iff_mem_box, HalfOpenBox.mem_box] at hbox
      exact hbox i
    have hmed := hboost.median_mem (by rw [List.length_map]; exact hmany) hin
    exact ⟨hmed.1, hmed.2.le⟩

end Inside

theorem bisects_inside_iff_of_cube :
    letI := gcc48
    ([.ofData 120 120 120 120, .ofData 110 110 110 110, .ofData 130 130 130 130].foldl track
      (cube 100 200)).BisectsInside := by
  let _ := gcc48
  refine (bisects_inside_iff PSquare.of_gcc48 ?_ ?_ ?_).mpr (Or.inl le_rfl)
  · exact nonempty_cube (by decide)
  · exact fun _ => rfl
  · decide

/-- A range away from zero whose rule was used but not tracked. -/
theorem bisects_outside :
    letI := gcc48
    PSquare gcc48.median ∧ (cube 100 200).Nonempty ∧ (∀ i, (cube 100 200).acc i = []) ∧
      ¬ ([].foldl track (cube 100 200)).BisectsInside := by
  let _ := gcc48
  refine ⟨PSquare.of_gcc48, nonempty_cube (by decide), fun _ => rfl, ?_⟩
  rintro ⟨ret, hret, h⟩
  have hleak : (cube 100 200).bisect.map (·.any (·.contains .init)) = .ok true := by
    decide +kernel
  rw [show (cube 100 200).bisect = .ok ret from hret] at hleak
  obtain ⟨x, hx, hmem⟩ := List.any_eq_true.mp (Except.ok.inj hleak)
  have hinit : (cube 100 200).contains .init := h x hx hmem
  exact absurd hinit (by decide)

end MemoryRange

end SendReceive
