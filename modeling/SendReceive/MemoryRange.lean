import SendReceive.Lib.Box
import SendReceive.Lib.RegionTree
import SendReceive.Memory

/-!
# Ranges of memories

A memory range is a half-open box in the four axes of the memory, together with
the accumulators that have tracked the queries it received.  The optimiser splits
a range by cutting it on each axis in turn at the median of its queries.

The operator `==` that `bisect` uses to see whether an axis can be cut compares
whole memories, and leaves one axis out.  On a range with room on every axis the
comparison always comes out unequal in the end, so that every axis is cut; what the
cuts produce splits the range wherever in the closed range the medians lie.

## Main definitions

* `MemoryRange`, `contains`, `rangeMedian`, `bisect`, `track`.
* `SameBounds`, `Nonempty` — the same box; a box with room on every axis.

## Main results

* `contains_iff_mem_box` — a range is a half-open box.
* `bisect_loop` — the rule for the loop over the axes.
* `bisect_splits` — **bisecting a range that is not empty splits it**.
-/

namespace SendReceive

open Memory (datasize)

/-- `MemoryRange`. -/
structure MemoryRange where
  lower : Memory
  upper : Memory
  acc : Fin datasize → Accumulator
  count : UInt32

namespace MemoryRange

/-- The constructor from the two corners. -/
def make (lower upper : Memory) : MemoryRange := ⟨lower, upper, fun _ => [], 0⟩

/-- `MemoryRange::contains`. -/
def contains (r : MemoryRange) (query : Memory) : Bool := query.opGe r.lower && query.opLt r.upper

instance : Region Memory MemoryRange := ⟨contains⟩

/-- `MemoryRange::use`. -/
def use (r : MemoryRange) : MemoryRange := { r with count := r.count + 1 }

/-- `MemoryRange::reset_count`. -/
def resetCount (r : MemoryRange) : MemoryRange := { r with count := 0 }

/-- `MemoryRange::track`: every accumulator receives the query's value on its axis. -/
def track (r : MemoryRange) (query : Memory) : MemoryRange :=
  { r with acc := fun i => r.acc i ++ [query.field i] }

/-- `MemoryRange::range_median`: the midpoint on every axis. -/
def rangeMedian (r : MemoryRange) : Memory :=
  (List.finRange datasize).foldl
    (fun median i => median.setField i ((r.lower.field i + r.upper.field i) / 2)) r.lower

/-- `operator==`.  The median estimators are ignored. -/
def opEq (r other : MemoryRange) : Bool := r.lower.opEq other.lower && r.upper.opEq other.upper

section Bisect

variable [Platform]

/-- Where `bisect` cuts a piece `x` of `r` on axis `i`: at the median, or at the midpoint
when the corner of the piece below the cut would compare equal to the lower corner. -/
def bisectPoint (r : MemoryRange) (i : Fin datasize) (x : MemoryRange) : DataType :=
  if x.lower.opEq (x.upper.setField i (Platform.median (r.acc i))) then
    (x.lower.field i + x.upper.field i) / 2
  else Platform.median (r.acc i)

/-- The two pieces of `x` on axis `i`. -/
def halves (r : MemoryRange) (i : Fin datasize) (x : MemoryRange) : List MemoryRange :=
  [make x.lower (x.upper.setField i (r.bisectPoint i x)),
    make (x.lower.setField i (r.bisectPoint i x)) x.upper]

/-- What the loop of `bisect` makes of one piece `x` on axis `i`. -/
def bisectAxis (r : MemoryRange) (i : Fin datasize) (x : MemoryRange) :
    Except Stop (List MemoryRange) :=
  let ersatzLower := x.lower.setField i (r.bisectPoint i x)
  let ersatzUpper := x.upper.setField i (r.bisectPoint i x)
  if x.lower.opEq ersatzUpper then
    -- cannot double on this axis
    if !ersatzLower.opEq x.upper && x.lower.opEq ersatzLower then .ok [x]
    else .error .assertFailed
  else .ok (r.halves i x)

/-- The loop of `bisect` on axis `i`, over the pieces found so far. -/
def doubled (r : MemoryRange) (ret : List MemoryRange) (i : Fin datasize) :
    Except Stop (List MemoryRange) :=
  (ret.mapM (r.bisectAxis i)).map List.flatten

/-- `MemoryRange::bisect`. -/
def bisect (r : MemoryRange) : Except Stop (List MemoryRange) := do
  let ret ← (List.finRange datasize).foldlM r.doubled [r]
  if ret.isEmpty then .error .assertFailed else .ok ret

end Bisect

/-! ### Ranges as boxes -/

/-- **A range is a half-open box.** -/
theorem contains_iff_mem_box {r : MemoryRange} {m : Memory} :
    r.contains m ↔ m.field ∈ HalfOpenBox.box r.lower.field r.upper.field := by
  rw [HalfOpenBox.mem_box, contains, Bool.and_eq_true, Memory.opGe_iff, Memory.opLt_iff,
    ← forall_and]

/-- Two ranges have the same bounds on all four axes. -/
def SameBounds (r s : MemoryRange) : Prop :=
  ∀ i, r.lower.field i = s.lower.field i ∧ r.upper.field i = s.upper.field i

/-- A range has room on every axis. -/
def Nonempty (r : MemoryRange) : Prop := ∀ i, r.lower.field i < r.upper.field i

theorem SameBounds.refl (r : MemoryRange) : SameBounds r r := fun _ => ⟨rfl, rfl⟩

theorem SameBounds.symm {r s : MemoryRange} (h : SameBounds r s) : SameBounds s r :=
  fun i => ⟨(h i).1.symm, (h i).2.symm⟩

theorem SameBounds.trans {r s t : MemoryRange} (h : SameBounds r s) (h' : SameBounds s t) :
    SameBounds r t :=
  fun i => ⟨(h i).1.trans (h' i).1, (h i).2.trans (h' i).2⟩

theorem SameBounds.nonempty {r s : MemoryRange} (h : SameBounds r s) (hr : r.Nonempty) :
    s.Nonempty :=
  fun i => by rw [← (h i).1, ← (h i).2]; exact hr i

/-- Ranges with the same bounds contain the same memories. -/
theorem SameBounds.contains_eq {r s : MemoryRange} (h : SameBounds r s) (m : Memory) :
    r.contains m = s.contains m := by
  have hl : r.lower.field = s.lower.field := funext fun i => (h i).1
  have hu : r.upper.field = s.upper.field := funext fun i => (h i).2
  rw [Bool.eq_iff_iff, contains_iff_mem_box, contains_iff_mem_box, hl, hu]

/-- Ranges with the same bounds compare equal. -/
theorem SameBounds.opEq {r s : MemoryRange} (h : SameBounds r s) : r.opEq s := by
  rw [MemoryRange.opEq, Bool.and_eq_true]
  exact ⟨Memory.opEq_of_field_eq fun i => (h i).1, Memory.opEq_of_field_eq fun i => (h i).2⟩

theorem field_rangeMedian (r : MemoryRange) (i : Fin datasize) :
    r.rangeMedian.field i = (r.lower.field i + r.upper.field i) / 2 := by
  fin_cases i <;> rfl

/-- **A range that is not empty contains its midpoint.** -/
theorem contains_rangeMedian {r : MemoryRange} (h : r.Nonempty) : r.contains r.rangeMedian := by
  rw [contains_iff_mem_box, funext (field_rangeMedian r)]
  exact HalfOpenBox.midpoint_mem_box h

/-! ### Bisection -/

section Bisect

variable [Platform]

/-- What is assumed of the accumulators: on each axis the median of the range's queries lies
in the closed interval between its bounds. -/
def MediansInRange (r : MemoryRange) : Prop :=
  ∀ i, r.lower.field i ≤ Platform.median (r.acc i) ∧ Platform.median (r.acc i) ≤ r.upper.field i

/-- A piece that has not been cut on the axes from `i` on. -/
def Uncut (r : MemoryRange) (i : Fin datasize) (x : MemoryRange) : Prop :=
  ∀ j, i ≤ j → x.lower.field j = r.lower.field j ∧ x.upper.field j = r.upper.field j

variable {r x : MemoryRange} {i : Fin datasize}

/-- The cut lies in the closed range of its axis. -/
theorem bisectPoint_mem (hmed : r.MediansInRange) (hr : r.Nonempty) (hx : r.Uncut i x) :
    x.lower.field i ≤ r.bisectPoint i x ∧ r.bisectPoint i x ≤ x.upper.field i := by
  obtain ⟨hl, hu⟩ := hx i le_rfl
  rw [bisectPoint]
  split
  · have hroom : x.lower.field i < x.upper.field i := by rw [hl, hu]; exact hr i
    obtain ⟨h1, h2⟩ := HalfOpenBox.midpoint_mem_Ico hroom
    exact ⟨h1.le, h2.le⟩
  · rw [hl, hu]
    exact hmed i

/-- **Every axis can be cut.**  After the midpoint was tried the corners differ: on the axis
itself, or, on the axis the operator leaves out, on one that comes after it. -/
theorem not_opEq_bisectPoint (hr : r.Nonempty) (hx : r.Uncut i x) :
    ¬ x.lower.opEq (x.upper.setField i (r.bisectPoint i x)) := by
  have hroom : ∀ j, i ≤ j → x.lower.field j < x.upper.field j := fun j hj => by
    rw [(hx j hj).1, (hx j hj).2]; exact hr j
  intro h
  rw [bisectPoint] at h
  split at h
  · rw [Memory.opEq_iff, Memory.field_setField] at h
    -- the operator does not look at axis 1: a piece cut there differs on axis 2, which is uncut
    by_cases hi : i = 1
    · subst hi
      have h2 := h 2 (by decide)
      rw [Function.update_of_ne (by decide)] at h2
      exact absurd h2 (ne_of_lt (hroom 2 (by decide)))
    · have hself := h i hi
      rw [Function.update_self] at hself
      exact absurd hself (ne_of_lt (HalfOpenBox.midpoint_mem_Ico (hroom i le_rfl)).1)
  · -- the median was kept since the corners differ
    contradiction

theorem bisectAxis_eq (hr : r.Nonempty) (hx : r.Uncut i x) :
    r.bisectAxis i x = .ok (r.halves i x) :=
  if_neg (not_opEq_bisectPoint hr hx)

/-- **The two halves split the piece.** -/
theorem halves_splits (hmed : r.MediansInRange) (hr : r.Nonempty) (hx : r.Uncut i x) :
    RegionTree.Splits x (r.halves i x) := by
  obtain ⟨hl, hu⟩ := bisectPoint_mem hmed hr hx
  have hbelow : ∀ m : Memory, (make x.lower (x.upper.setField i (r.bisectPoint i x))).contains m ↔
      m.field ∈ HalfOpenBox.box x.lower.field
        (Function.update x.upper.field i (r.bisectPoint i x)) := fun m => by
    rw [contains_iff_mem_box, ← Memory.field_setField]; rfl
  have habove : ∀ m : Memory, (make (x.lower.setField i (r.bisectPoint i x)) x.upper).contains m ↔
      m.field ∈ HalfOpenBox.box (Function.update x.lower.field i (r.bisectPoint i x))
        x.upper.field := fun m => by
    rw [contains_iff_mem_box, ← Memory.field_setField]; rfl
  refine RegionTree.Splits.pair (fun m => ?_) fun m => ?_
  · show x.contains m ↔ _
    rw [contains_iff_mem_box, HalfOpenBox.mem_box_cut hl hu, ← hbelow, ← habove]
    rfl
  · show ¬ ((make _ _).contains m ∧ (make _ _).contains m)
    rw [hbelow, habove]
    exact HalfOpenBox.not_mem_box_cut_both

/-- The halves are not cut on the axes after `i`. -/
theorem uncut_of_mem_halves (hx : r.Uncut i x) {y : MemoryRange} (hy : y ∈ r.halves i x)
    {k : Fin datasize} (hk : i < k) : r.Uncut k y := by
  intro j hj
  have hne : j ≠ i := (lt_of_lt_of_le hk hj).ne'
  have hxj := hx j (le_trans hk.le hj)
  -- each half changes one corner of the piece, on axis `i`
  rcases List.mem_pair.mp hy with rfl | rfl
  · exact ⟨hxj.1, by rw [make, Memory.field_setField, Function.update_of_ne hne]; exact hxj.2⟩
  · exact ⟨by rw [make, Memory.field_setField, Function.update_of_ne hne]; exact hxj.1, hxj.2⟩

/-- **The rule for the loop of `bisect`**: what holds of the range before the first axis and is kept
on each of the four axes holds of what it returns. -/
theorem bisect_loop {P : ℕ → List MemoryRange → Prop} (hstart : P 0 [r])
    (hstep : ∀ (i : Fin datasize) (ret : List MemoryRange), P i ret →
      ∃ ret', r.doubled ret i = .ok ret' ∧ P (i + 1) ret')
    (hne : ∀ ret, P datasize ret → ret ≠ []) : ∃ ret, r.bisect = .ok ret ∧ P datasize ret := by
  obtain ⟨ret₁, h₁, hp₁⟩ := hstep 0 _ hstart
  obtain ⟨ret₂, h₂, hp₂⟩ := hstep 1 _ hp₁
  obtain ⟨ret₃, h₃, hp₃⟩ := hstep 2 _ hp₂
  obtain ⟨ret₄, h₄, hp₄⟩ := hstep 3 _ hp₃
  have hnil : ret₄.isEmpty = false := List.isEmpty_eq_false_iff.mpr (hne ret₄ hp₄)
  -- the loop of the sources runs through the four axes in this order
  have hfold : (List.finRange datasize).foldlM r.doubled [r] = .ok ret₄ := by
    show [0, 1, 2, 3].foldlM r.doubled [r] = .ok ret₄
    simp only [List.foldlM_cons, List.foldlM_nil, h₁, h₂, h₃, h₄, ok_bind]
    rfl
  exact ⟨ret₄, by rw [bisect, hfold, ok_bind, hnil]; rfl, hp₄⟩

/-- One round of the loop, over pieces that have not been cut on its axis. -/
theorem doubled_eq_ok (hr : r.Nonempty) {ret : List MemoryRange} (hret : ∀ x ∈ ret, r.Uncut i x) :
    r.doubled ret i = .ok (ret.flatMap (r.halves i)) := by
  rw [doubled, mapM_eq_ok fun x hx => bisectAxis_eq hr (hret x hx), List.flatMap_def]
  rfl

/-- The pieces found on the axes below `k` split the range, and are uncut on the others. -/
def SplitBelow (r : MemoryRange) (k : ℕ) (ret : List MemoryRange) : Prop :=
  RegionTree.Splits r ret ∧ ∀ i : Fin datasize, k ≤ i → ∀ x ∈ ret, r.Uncut i x

/-- **One round of the loop**: the pieces still split the range, and the axes after `i` are
still uncut. -/
theorem SplitBelow.doubled (hmed : r.MediansInRange) (hr : r.Nonempty) {ret : List MemoryRange}
    (h : r.SplitBelow i ret) :
    ∃ ret', r.doubled ret i = .ok ret' ∧ r.SplitBelow (i + 1) ret' := by
  have huncut : ∀ x ∈ ret, r.Uncut i x := h.2 i le_rfl
  refine ⟨ret.flatMap (r.halves i), doubled_eq_ok hr huncut, ?_, ?_⟩
  · exact h.1.flatMap fun x hx => halves_splits hmed hr (huncut x hx)
  · intro k hk y hy
    obtain ⟨x, hx, hyx⟩ := List.mem_flatMap.mp hy
    exact uncut_of_mem_halves (huncut x hx) hyx (Fin.lt_def.mpr hk)

/-- **Bisecting a range that is not empty splits it**, whatever medians the accumulators
give between its bounds. -/
theorem bisect_splits (hmed : r.MediansInRange) (hr : r.Nonempty) :
    ∃ ret, r.bisect = .ok ret ∧ RegionTree.Splits r ret := by
  have hstart : r.SplitBelow 0 [r] := by
    refine ⟨.singleton fun _ => rfl, fun i _ x hx => ?_⟩
    rw [List.mem_singleton.mp hx]
    exact fun j _ => ⟨rfl, rfl⟩
  obtain ⟨ret, hret, hsplit, -⟩ := bisect_loop hstart (fun i ret h => h.doubled hmed hr)
    fun ret h => by
      obtain ⟨e, he, -⟩ := h.1.exists_mem (contains_rangeMedian hr)
      exact List.ne_nil_of_mem he
  exact ⟨ret, hret, hsplit⟩

end Bisect

end MemoryRange

end SendReceive
