import SendReceive.Lib.RegionTreeMap
import SendReceive.WhiskerTree
import Mathlib.Data.UInt

/-!
# What the optimiser counts

Every use of a rule is counted, and when it is tracked the memory goes into the accumulators of the
rule's domain; the optimiser splits the rule that is used most, at the medians of what was tracked.

Each query is answered by one rule only, that of the leaf that contains it, so the counts of all
rules add up to the number of queries, up to the width of an `unsigned int`.

## Main definitions

* `WhiskerTree.totalWhiskerQueries` — the sum of all counts, as the sources add them.
* `WhiskerTree.useAll` — a sequence of calls of `use_whisker`.
* `Whisker.answer` — what a query does to a rule.
* `Whisker.Answered` — what a sequence of queries did to a rule.

## Main results

* `WhiskerTree.WellFormed.useAll_eq` — a sequence of queries answers each rule by itself.
* `WhiskerTree.query_accounting` — **the counts and the accumulators are exact**.
-/

namespace SendReceive

/-! ### One rule -/

namespace Whisker

/-- What a query, tracked or not, does to a rule: nothing unless its domain contains it. -/
def answer (w : Whisker) (query : Memory × Bool) : Whisker :=
  if w.domain.contains query.1 then if query.2 then w.use.track query.1 else w.use else w

/-- The rule `w'` is `w` after the queries that its domain contains were counted, and those of them
that are tracked went into the accumulators. -/
structure Answered (queries : List (Memory × Bool)) (w w' : Whisker) : Prop where
  action : w'.action = w.action
  lower : w'.domain.lower = w.domain.lower
  upper : w'.domain.upper = w.domain.upper
  count : w'.count = w.count + UInt32.ofNat (queries.countP fun q => w.domain.contains q.1)
  acc : ∀ i, w'.domain.acc i = w.domain.acc i ++
    (queries.filter fun q => q.2 && w.domain.contains q.1).map fun q => q.1.field i

theorem Answered.refl (w : Whisker) : Answered [] w w :=
  ⟨rfl, rfl, rfl, (UInt32.add_zero _).symm, fun _ => (List.append_nil _).symm⟩

/-- What was answered contains the same memories. -/
theorem Answered.contains_eq {queries : List (Memory × Bool)} {w w' : Whisker}
    (h : Answered queries w w') (m : Memory) : w'.domain.contains m = w.domain.contains m := by
  rw [MemoryRange.contains, MemoryRange.contains, h.lower, h.upper]

/-- One more query. -/
theorem Answered.answer {queries : List (Memory × Bool)} {w w' : Whisker}
    (h : Answered queries w w') (q : Memory × Bool) :
    Answered (queries ++ [q]) w (w'.answer q) := by
  obtain ⟨m, track⟩ := q
  have hcontains := h.contains_eq m
  unfold Whisker.answer
  by_cases hm : w.domain.contains m
  · rw [if_pos (hcontains.trans hm)]
    have hcount : w'.count + 1 = w.count
        + UInt32.ofNat ((queries ++ [(m, track)]).countP fun q => w.domain.contains q.1) := by
      rw [h.count, List.countP_append, List.countP_singleton, if_pos hm, UInt32.ofNat_add,
        UInt32.add_assoc]
      rfl
    cases track with
    | true =>
      refine ⟨h.action, h.lower, h.upper, hcount, fun i => ?_⟩
      show w'.domain.acc i ++ [m.field i] = _
      rw [h.acc i, List.filter_append, List.map_append, List.append_assoc]
      simp [hm]
    | false =>
      refine ⟨h.action, h.lower, h.upper, hcount, fun i => ?_⟩
      show w'.domain.acc i = _
      rw [h.acc i, List.filter_append]
      simp
  · rw [if_neg fun h' => hm (hcontains.symm.trans h')]
    refine ⟨h.action, h.lower, h.upper, ?_, fun i => ?_⟩
    · rw [h.count, List.countP_append, List.countP_singleton, if_neg hm, Nat.add_zero]
    · rw [h.acc i, List.filter_append]
      simp [hm]

/-- **What a sequence of queries does to a rule.** -/
theorem answered_foldl (queries : List (Memory × Bool)) (w : Whisker) :
    Answered queries w (queries.foldl Whisker.answer w) := by
  induction queries using List.reverseRecOn with
  | nil => exact .refl w
  | append_singleton queries q ih =>
    rw [List.foldl_append]
    exact ih.answer q

end Whisker

/-! ### The tree -/

namespace WhiskerTree

open RegionTree

/-- `WhiskerTree::total_whisker_queries`.  The running sum of `accumulate` is an `int`, since it
starts from the literal zero, and is converted to `unsigned int` and back at each child. -/
def totalWhiskerQueries : WhiskerTree → UInt32 :=
  fold (fun _ leaf => leaf.domain.count) fun _ totals =>
    (totals.foldl (fun sum x => (sum.toUInt32 + x).toInt32) (0 : Int32)).toUInt32

/-- A sequence of calls of `use_whisker`. -/
def useAll (t : WhiskerTree) (queries : List (Memory × Bool)) : Except Stop WhiskerTree :=
  queries.foldlM (fun t q => (t.useWhisker q.1 q.2).map Prod.snd) t

/-- The conversions of the running sum lose nothing. -/
theorem toUInt32_foldl (totals : List UInt32) : ∀ sum : Int32,
    (totals.foldl (fun sum x => (sum.toUInt32 + x).toInt32) sum).toUInt32
      = sum.toUInt32 + totals.sum := by
  induction totals with
  | nil => intro sum; exact (UInt32.add_zero _).symm
  | cons x totals ih =>
    intro sum
    rw [List.foldl_cons, ih, UInt32.toUInt32_toInt32, List.sum_cons, UInt32.add_assoc]

/-- The total is the sum of the counts of all leaves. -/
theorem totalWhiskerQueries_eq (t : WhiskerTree) :
    t.totalWhiskerQueries = (t.leaves.map fun p => p.2.count).sum := by
  induction t using RegionTree.induct with
  | leaf d w => exact (UInt32.add_zero _).symm
  | node d cs ih =>
    rw [totalWhiskerQueries, fold_node, toUInt32_foldl, leaves_node]
    show 0 + (cs.map totalWhiskerQueries).sum = _
    rw [UInt32.zero_add]
    induction cs with
    | nil => rfl
    | cons c cs ihcs =>
      rw [List.map_cons, List.sum_cons, List.flatMap_cons, List.map_append, List.sum_append,
        ih c List.mem_cons_self, ihcs fun b hb => ih b (List.mem_cons_of_mem _ hb)]

theorem totalWhiskerQueries_resetCounts (t : WhiskerTree) :
    t.resetCounts.totalWhiskerQueries = 0 := by
  rw [totalWhiskerQueries_eq, resetCounts, leaves_mapLabels, List.map_map]
  have hzero : ∀ l : List (MemoryRange × Whisker), (l.map fun _ => (0 : UInt32)).sum = 0 := by
    intro l
    induction l with
    | nil => rfl
    | cons p l ih => rw [List.map_cons, List.sum_cons, ih]; rfl
  exact hzero t.leaves

/-- **A query in the root's domain** answers every rule by itself, and counts once. -/
theorem WellFormed.useWhisker_eq {t : WhiskerTree} (h : WellFormed t) {q : Memory × Bool}
    (hq : t.region.contains q.1) :
    ∃ w, t.useWhisker q.1 q.2 = .ok (w, t.mapLabels (·.answer q)) ∧
      totalWhiskerQueries (t.mapLabels (·.answer q)) = t.totalWhiskerQueries + 1 := by
  obtain ⟨C, d, w, rfl, hd, hC⟩ := h.partitioned.exists_context hq
  have hw : w.domain.contains q.1 :=
    ((h.domains _ (C.mem_leaves_fill_leaf d w)).contains_eq _).symm.trans hd
  have hanswer : w.answer q = if q.2 then w.use.track q.1 else w.use := if_pos hw
  -- the rules of the other leaves do not answer
  have hmap : (C.fill (.leaf d w)).mapLabels (·.answer q) = C.fill (.leaf d (w.answer q)) := by
    refine h.partitioned.mapLabels_fill hd fun p hp hout => if_neg fun hin => hout ?_
    exact ((h.domains p hp).contains_eq _).trans hin
  refine ⟨w.answer q, ?_, ?_⟩
  · rw [useWhisker, visit_fill_leaf Stop.assertFailed hC hd, hmap, hanswer]
    rfl
  · have hcount : (w.answer q).count = w.count + 1 := by
      rw [hanswer]
      cases q.2 <;> rfl
    rw [hmap, totalWhiskerQueries_eq, totalWhiskerQueries_eq, Context.leaves_fill,
      Context.leaves_fill]
    simp only [List.map_append, List.sum_append, leaves_leaf, List.map_cons, List.map_nil,
      List.sum_cons, List.sum_nil, hcount]
    ac_rfl

/-- **A sequence of queries answers each rule by itself**, and each query counts once. -/
theorem WellFormed.useAll_eq {queries : List (Memory × Bool)} : ∀ {t : WhiskerTree}, WellFormed t →
    (∀ q ∈ queries, t.region.contains q.1) →
    t.useAll queries = .ok (t.mapLabels fun w => queries.foldl Whisker.answer w) ∧
      totalWhiskerQueries (t.mapLabels fun w => queries.foldl Whisker.answer w)
        = t.totalWhiskerQueries + UInt32.ofNat queries.length := by
  induction queries with
  | nil =>
    intro t _ _
    have hself : (t.mapLabels fun w => w) = t := mapLabels_eq_self fun _ _ => rfl
    simp only [List.foldl_nil, hself]
    exact ⟨rfl, (UInt32.add_zero _).symm⟩
  | cons q queries ih =>
    intro t h hq
    obtain ⟨hfirst, hrest⟩ := List.forall_mem_cons.mp hq
    obtain ⟨w, hstep, htotal⟩ := h.useWhisker_eq hfirst
    have hbounds : ∀ w : Whisker, w.domain.SameBounds (w.answer q).domain := fun w i => by
      have hone : Whisker.Answered [q] w (w.answer q) := Whisker.answered_foldl [q] w
      rw [hone.lower, hone.upper]
      exact ⟨rfl, rfl⟩
    obtain ⟨hall, hsum⟩ := ih (h.mapLabels hbounds) fun q' hq' => by
      rw [region_mapLabels]
      exact hrest q' hq'
    rw [mapLabels_mapLabels] at hall hsum
    refine ⟨?_, ?_⟩
    · rw [useAll, List.foldlM_cons, hstep]
      exact hall
    · rw [List.length_cons, Nat.add_comm, UInt32.ofNat_add, ← UInt32.add_assoc]
      rw [htotal] at hsum
      exact hsum

/-- **The counts and the accumulators are exact.**  After the counts were reset, and then any
sequence of queries in the root's domain, the total is the number of queries modulo `2 ^ 32`; the
count of each rule is the number of those that its domain contains, and its accumulators have
received those of them that are tracked; and no domain, action, generation or shape has
changed. -/
theorem query_accounting {t : WhiskerTree} (h : WellFormed t) {queries : List (Memory × Bool)}
    (hq : ∀ q ∈ queries, t.region.contains q.1) :
    ∃ t', t.resetCounts.useAll queries = .ok t' ∧
      t'.totalWhiskerQueries.toNat = queries.length % 2 ^ 32 ∧
      List.Forall₂ (fun leaf leaf' : MemoryRange × Whisker =>
        (leaf'.1 = leaf.1 ∧ leaf'.2.action = leaf.2.action ∧
          leaf'.2.domain.lower = leaf.2.domain.lower ∧
          leaf'.2.domain.upper = leaf.2.domain.upper) ∧
        leaf'.2.count.toNat = (queries.countP fun q => leaf.2.domain.contains q.1) % 2 ^ 32 ∧
        ∀ i, leaf'.2.domain.acc i = leaf.2.domain.acc i ++
          (queries.filter fun q => q.2 && leaf.2.domain.contains q.1).map fun q => q.1.field i)
        t.leaves t'.leaves ∧
      t'.shape = t.shape := by
  have hreset : WellFormed t.resetCounts := h.mapLabels fun _ => .refl _
  obtain ⟨hrun, htotal⟩ := hreset.useAll_eq fun q hq' => by
    rw [resetCounts, region_mapLabels]
    exact hq q hq'
  refine ⟨_, hrun, ?_, ?_, ?_⟩
  · rw [htotal, totalWhiskerQueries_resetCounts, UInt32.zero_add, UInt32.toNat_ofNat']
  · rw [resetCounts, mapLabels_mapLabels, leaves_mapLabels, List.forall₂_map_right_iff,
      List.forall₂_same]
    rintro ⟨d, w⟩ -
    have hw := Whisker.answered_foldl queries w.resetCount
    refine ⟨⟨rfl, hw.action, hw.lower, hw.upper⟩, ?_, hw.acc⟩
    have hcount : w.resetCount.count = 0 := rfl
    show (List.foldl Whisker.answer w.resetCount queries).count.toNat = _
    rw [hw.count, hcount, UInt32.zero_add, UInt32.toNat_ofNat']
    rfl
  · rw [shape, shape, resetCounts, mapLabels_mapLabels, mapLabels_mapLabels]

/-- Three queries, two of them tracked in the lower half, the other not tracked in the upper. -/
theorem query_accounting_of_halved : ∃ t' low high,
    WhiskerTree.halved.resetCounts.useAll
      [(.ofData 1 2 3 4, true), (.ofData 90000 6 7 8, false), (.ofData 1 9 3 4, true)] = .ok t' ∧
    t'.totalWhiskerQueries.toNat = 3 ∧ t'.leaves = [low, high] ∧
    (low.2.count.toNat = 2 ∧ low.2.domain.acc 1 = [2, 9]) ∧
    high.2.count.toNat = 1 ∧ high.2.domain.acc 1 = [] := by
  let queries : List (Memory × Bool) :=
    [(.ofData 1 2 3 4, true), (.ofData 90000 6 7 8, false), (.ofData 1 9 3 4, true)]
  have hq : ∀ q ∈ queries, WhiskerTree.halved.region.contains q.1 := by decide +kernel
  obtain ⟨t', hrun, htotal, hleaves, -⟩ := query_accounting WellFormed.halved hq
  -- the two leaves of the table, and what became of them
  obtain ⟨low, rest, ⟨-, hlow, hlowAcc⟩, hrest, hcons⟩ := List.forall₂_cons_left_iff.mp hleaves
  obtain ⟨high, tail, ⟨-, hhigh, hhighAcc⟩, htail, rfl⟩ := List.forall₂_cons_left_iff.mp hrest
  obtain rfl := List.forall₂_nil_left_iff.mp htail
  refine ⟨t', low, high, hrun, htotal, hcons, ⟨?_, ?_⟩, ?_, ?_⟩
  · rw [hlow]
    decide +kernel
  · rw [hlowAcc 1]
    decide +kernel
  · rw [hhigh]
    decide +kernel
  · rw [hhighAcc 1]
    decide +kernel

end WhiskerTree

end SendReceive
