import SendReceive.Generations

/-!
# What the search can reach

The optimiser's search goes from a rule to one of its next generation, again and again.  Its
smallest changes are one packet, a hundredth of a window and a twentieth of a millisecond, and the
bigger ones are multiples of them.  Rounding to a ten-thousandth comes in the first generation and
changes nothing afterwards.

So the parameters stay on a grid through the rounded parameters of the first rule.  In one
generation each parameter can go one, four or sixteen steps of the grid, or stay, whatever the
others do; the search comes to every point of the grid that is in the ranges.

## Main definitions

* `Whisker.moved` — the points of the grid through a rule.
* `Whisker.OnGrid` — the rules whose parameters are such points.
* `Whisker.Neighbour`, `Whisker.effort` — one change, and how many are needed.

## Main results

* `Whisker.mem_nextGeneration_iff` — **which rules the next generation consists of**.
* `Whisker.Descendant.onGrid` — the search does not leave the grid.
* `Whisker.exists_neighbour`, `Whisker.Descendant.moved` — it comes everywhere on the grid.
* `Whisker.search_space` — **what the search can reach**.
-/

namespace SendReceive

namespace Whisker

open OptimizationSetting (mem_alternatives_iff)

/-! ### The next generation, exactly -/

section Near

variable {T : Type} [Add T] [Sub T] [Mul T] [LE T] [DecidableLE T]

/-- A value that is found from another one with the changes `cs`. -/
def Near (s : OptimizationSetting T) (cs : List T) (value v : T) : Prop :=
  v = value ∨ s.eligibleValue v ∧ ∃ c ∈ cs, v = value + c ∨ v = value - c

end Near

/-- **Which rules the next generation consists of**: all combinations of the alternatives. -/
theorem mem_nextGeneration_iff {w : Whisker} (hw : w.InRange) {turns : ℕ} (hturns : 3 ≤ turns) :
    ∃ ws, w.nextGeneration turns = .ok ws ∧ ∀ w', w' ∈ ws ↔ ∃ a m i,
      Near getOptimizer.windowIncrement [1, 1 * 4, 1 * 4 * 4] w.windowIncrement.toUInt32 a ∧
      Near getOptimizer.windowMultiple [1 / 100, 1 / 100 * 4, 1 / 100 * 4 * 4] w.windowMultiple m ∧
      Near getOptimizer.intersend [1 / 20, 1 / 20 * 4, 1 / 20 * 4 * 4] w.intersend i ∧
      w' = w.child a m i := by
  obtain ⟨hwindow, hmultiple, hintersend⟩ := inRange_iff.mp hw
  obtain ⟨as, has, hA⟩ := mem_alternatives_iff steps_windowIncrement hturns hwindow
  obtain ⟨ms, hms, hM⟩ := mem_alternatives_iff steps_windowMultiple hturns hmultiple
  obtain ⟨is, his, hI⟩ := mem_alternatives_iff steps_intersend hturns hintersend
  have hnew : ∀ a ∈ as, ∀ m ∈ ms, ∀ i ∈ is,
      uncut (w.newWhisker a m i) = .ok (w.child a m i) := by
    intro a _ m hm i hi
    have hm' : getOptimizer.windowMultiple.eligibleValue m :=
      OptimizationSetting.eligibleValue_of_mem steps_windowMultiple hturns hmultiple hms hm
    have hi' : getOptimizer.intersend.eligibleValue i :=
      OptimizationSetting.eligibleValue_of_mem steps_intersend hturns hintersend his hi
    rw [newWhisker_eq_ok w a hm' hi', uncut_ok]
  refine ⟨(as.map fun a => (ms.map fun m => is.map fun i => w.child a m i).flatten).flatten,
    ?_, fun w' => ?_⟩
  · rw [nextGeneration, has, ok_bind, hms, his]
    simp only [ok_bind]
    rw [mapM_eq_ok fun a ha => ?_, ok_bind]
    · rfl
    · rw [mapM_eq_ok fun m hm => mapM_eq_ok fun i hi => hnew a ha m hm i hi, ok_bind]
      rfl
  · simp only [Near, ← hA, ← hM, ← hI, List.mem_flatten, List.mem_map]
    constructor
    · rintro ⟨_, ⟨a, ha, rfl⟩, hw'⟩
      obtain ⟨_, hl, hw'⟩ := List.mem_flatten.mp hw'
      obtain ⟨m, hm, rfl⟩ := List.mem_map.mp hl
      obtain ⟨i, hi, rfl⟩ := List.mem_map.mp hw'
      exact ⟨a, m, i, ha, hm, hi, rfl⟩
    · rintro ⟨a, m, i, ha, hm, hi, rfl⟩
      refine ⟨_, ⟨a, ha, rfl⟩, ?_⟩
      exact List.mem_flatten_of_mem (List.mem_map_of_mem hm) (List.mem_map_of_mem hi)

/-! ### The grid -/

/-- Rounding goes along with a move by ten-thousandths. -/
theorem rounded_add_div {x : DataType} (hx : 0 ≤ x) {n : ℤ} (h : 0 ≤ x + n / 10000) :
    rounded (x + n / 10000) = rounded x + n / 10000 := by
  have hmul : (10000 : DataType) * (x + n / 10000) = 10000 * x + n := by ring
  have hmul' : (0 : DataType) ≤ 10000 * x + n := by linarith
  rw [rounded, rounded, hmul, truncate_of_nonneg hmul', truncate_of_nonneg (by linarith),
    Int.floor_add_intCast]
  push_cast
  ring

/-- Rounding twice is rounding once. -/
theorem rounded_rounded (x : DataType) : rounded (rounded x) = rounded x := by
  have hdiv : rounded x = (truncate (10000 * x) : ℤ) / 10000 := one_div_mul_eq_div _ _
  rw [hdiv, rounded_div]

/-- The rule on the grid through another rule, so many steps from it, with a window increment. -/
def moved (w : Whisker) (generation : UInt32) (window multiple intersend : ℤ) : Whisker where
  generation := generation
  windowIncrement := Int32.ofInt window
  windowMultiple := rounded w.windowMultiple + multiple / 100
  intersend := rounded w.intersend + intersend / 20
  domain := w.domain

/-- The rule's parameters are on the grid through those of the rule `w₀`. -/
def OnGrid (w₀ w : Whisker) : Prop :=
  (∃ n : ℤ, w.windowMultiple = rounded w₀.windowMultiple + n / 100) ∧
    ∃ n : ℤ, w.intersend = rounded w₀.intersend + n / 20

/-- A rule of the grid that is in range, and where it is. -/
theorem OnGrid.eq_moved {w₀ w : Whisker} (h : OnGrid w₀ w) (hdomain : w.domain = w₀.domain) :
    ∃ multiple intersend,
      w = moved w₀ w.generation w.windowIncrement.toInt multiple intersend := by
  obtain ⟨⟨n, hn⟩, m, hm⟩ := h
  refine ⟨n, m, ?_⟩
  rw [moved, Int32.ofInt_toInt, ← hn, ← hm, ← hdomain]

/-- Where the rules of the grid are in range. -/
theorem inRange_moved_iff {w : Whisker} {generation : UInt32} {window multiple intersend : ℤ}
    (hwindow : 0 ≤ window ∧ window ≤ 256) :
    (moved w generation window multiple intersend).InRange ↔
      (0 ≤ rounded w.windowMultiple + multiple / 100 ∧
        rounded w.windowMultiple + multiple / 100 ≤ 1) ∧
      1 / 4 ≤ rounded w.intersend + intersend / 20 ∧ rounded w.intersend + intersend / 20 ≤ 3 := by
  have hvalue : (Int32.ofInt window).toInt = window :=
    Int32.toInt_ofInt_of_le (by omega) (by omega)
  unfold InRange moved
  simp only [hvalue, getOptimizer]
  constructor
  · rintro ⟨-, -, hlow, hhigh, hlow', hhigh'⟩
    exact ⟨⟨hlow, hhigh⟩, hlow', hhigh'⟩
  · rintro ⟨⟨hlow, hhigh⟩, hlow', hhigh'⟩
    exact ⟨hwindow.1, hwindow.2, hlow, hhigh, hlow', hhigh'⟩

/-! ### The search does not leave the grid -/

/-- What is found from a value is so many steps of the grid away. -/
theorem Near.exists_steps {s : OptimizationSetting DataType} {d value v : DataType}
    (h : Near s [1 / d, 1 / d * 4, 1 / d * 4 * 4] value v) : ∃ n : ℤ, v = value + n / d := by
  simp only [Near, List.mem_cons, List.not_mem_nil, or_false, exists_eq_or_imp,
    exists_eq_left] at h
  rcases h with rfl | ⟨-, (rfl | rfl) | (rfl | rfl) | rfl | rfl⟩
  · exact ⟨0, by simp⟩
  · exact ⟨1, by push_cast; ring⟩
  · exact ⟨-1, by push_cast; ring⟩
  · exact ⟨4, by push_cast; ring⟩
  · exact ⟨-4, by push_cast; ring⟩
  · exact ⟨16, by push_cast; ring⟩
  · exact ⟨-16, by push_cast; ring⟩

/-- A value that is found is eligible. -/
theorem Near.eligible {s : OptimizationSetting DataType} {cs : List DataType} {value v : DataType}
    (hvalue : s.eligibleValue value) (h : Near s cs value v) : s.eligibleValue v := by
  rcases h with rfl | ⟨hv, -⟩
  · exact hvalue
  · exact hv

/-- Rounding goes along with the steps of a grid whose step is some ten-thousandths. -/
theorem rounded_add_steps {d : DataType} {q : ℤ} (hd : d * q = 10000) {value : DataType}
    (hvalue : 0 ≤ value) {n : ℤ} (h : 0 ≤ value + n / d) :
    rounded (value + n / d) = rounded value + n / d := by
  have hq : (q : DataType) ≠ 0 := right_ne_zero_of_mul (hd.trans_ne (by norm_num))
  have hsteps : (n : DataType) / d = ((n * q : ℤ) : DataType) / 10000 := by
    rw [← hd, Int.cast_mul, mul_div_mul_right _ _ hq]
  rw [hsteps] at h ⊢
  exact rounded_add_div hvalue h

theorem nonneg_windowMultiple {x : DataType} (h : getOptimizer.windowMultiple.eligibleValue x) :
    0 ≤ x := by
  simp only [OptimizationSetting.eligibleValue, Bool.and_eq_true, decide_eq_true_eq] at h
  exact h.1

theorem nonneg_intersend {x : DataType} (h : getOptimizer.intersend.eligibleValue x) : 0 ≤ x := by
  simp only [OptimizationSetting.eligibleValue, Bool.and_eq_true, decide_eq_true_eq] at h
  exact le_trans (by norm_num [getOptimizer]) h.1

/-- **A child is on the grid through its parent.** -/
theorem onGrid_child {w : Whisker} (hw : w.InRange) {a : UInt32} {m i : DataType}
    (hm : Near getOptimizer.windowMultiple [1 / 100, 1 / 100 * 4, 1 / 100 * 4 * 4]
      w.windowMultiple m)
    (hi : Near getOptimizer.intersend [1 / 20, 1 / 20 * 4, 1 / 20 * 4 * 4] w.intersend i) :
    OnGrid w (w.child a m i) := by
  obtain ⟨-, hmultiple, hintersend⟩ := inRange_iff.mp hw
  have hm0 := nonneg_windowMultiple (hm.eligible hmultiple)
  have hi0 := nonneg_intersend (hi.eligible hintersend)
  obtain ⟨n, rfl⟩ := hm.exists_steps
  obtain ⟨n', rfl⟩ := hi.exists_steps
  exact ⟨⟨n, rounded_add_steps (q := 100) (by norm_num) (nonneg_windowMultiple hmultiple) hm0⟩,
    n', rounded_add_steps (q := 500) (by norm_num) (nonneg_intersend hintersend) hi0⟩

/-- The grid through a rounded rule of a grid is the same grid. -/
theorem OnGrid.trans {w₀ w w' : Whisker} (h : OnGrid w₀ w) (hw : w.Rounded) (h' : OnGrid w w') :
    OnGrid w₀ w' := by
  obtain ⟨⟨n, hn⟩, m, hm⟩ := h
  obtain ⟨⟨n', hn'⟩, m', hm'⟩ := h'
  have hself : w.withRounded = w := withRounded_eq_self hw
  have hmultiple : rounded w.windowMultiple = w.windowMultiple :=
    congrArg Whisker.windowMultiple hself
  have hintersend : rounded w.intersend = w.intersend := congrArg Whisker.intersend hself
  refine ⟨⟨n + n', ?_⟩, m + m', ?_⟩
  · rw [hn', hmultiple, hn]
    push_cast
    ring
  · rw [hm', hintersend, hm]
    push_cast
    ring

/-- **The search does not leave the grid**, by induction along the chain of generations. -/
theorem Descendant.onGrid {w₀ : Whisker} (h₀ : w₀.InRange) {turns : ℕ} (hturns : 3 ≤ turns) {k : ℕ}
    {w : Whisker} (h : Descendant turns w₀ k w) (hk : 1 ≤ k) : OnGrid w₀ w := by
  induction h with
  | self => omega
  | @next k w w' ws parent hws mem ih =>
    have hbred := parent.bred h₀ hturns
    obtain ⟨ws', hws', hmem⟩ := mem_nextGeneration_iff hbred.inRange hturns
    obtain rfl := Except.ok.inj (hws.symm.trans hws')
    obtain ⟨a, m, i, -, hm, hi, rfl⟩ := (hmem w').mp mem
    have hchild : OnGrid w (w.child a m i) := onGrid_child hbred.inRange hm hi
    cases k with
    | zero =>
      cases parent
      exact hchild
    | succ k => exact (ih (by omega)).trans (hbred.rounded (by omega)) hchild

/-! ### The search comes everywhere on the grid -/

/-- The numbers that one change of one, four or sixteen steps leads to, or none. -/
def Neighbour (a b : ℤ) : Prop := b = a ∨ ∃ n ∈ [(1 : ℤ), 4, 16], b = a + n ∨ b = a - n

/-- In how many changes one gets so many steps away, with the biggest changes first. -/
def effort (d : ℤ) : ℕ := d.natAbs / 16 + d.natAbs % 16 / 4 + d.natAbs % 4

/-- Going so many steps and taking as many changes for the rest. -/
theorem exists_change {d k : ℕ} (h : d / 16 + d % 16 / 4 + d % 4 ≤ k + 1) (hd : d ≠ 0) :
    ∃ n : ℕ, (n : ℤ) ∈ [(1 : ℤ), 4, 16] ∧ n ≤ d ∧
      (d - n) / 16 + (d - n) % 16 / 4 + (d - n) % 4 ≤ k := by
  rcases Nat.lt_or_ge d 4 with hsmall | hbig
  · exact ⟨1, by simp, by omega, by omega⟩
  · rcases Nat.lt_or_ge d 16 with hsmall' | hbig'
    · exact ⟨4, by simp, by omega, by omega⟩
    · exact ⟨16, by simp, by omega, by omega⟩

/-- On the way from `a` to `b` there is a neighbour of `b`, unless `b` is reached. -/
theorem exists_neighbour {a b : ℤ} {k : ℕ} (h : effort (b - a) ≤ k + 1) :
    ∃ c, effort (c - a) ≤ k ∧ Neighbour c b ∧ (a ≤ c ∧ c ≤ b ∨ b ≤ c ∧ c ≤ a) := by
  by_cases hd : (b - a).natAbs = 0
  · obtain rfl : b = a := by omega
    exact ⟨b, by simp [effort], Or.inl rfl, Or.inl ⟨le_rfl, le_rfl⟩⟩
  · obtain ⟨n, hmem, hle, hrest⟩ := exists_change h hd
    rcases le_total a b with hab | hba
    · have habs : (b - n - a).natAbs = (b - a).natAbs - n := by omega
      refine ⟨b - n, ?_, Or.inr ⟨n, hmem, Or.inl (by omega)⟩, Or.inl ⟨by omega, by omega⟩⟩
      rw [effort, habs]
      exact hrest
    · have habs : (b + n - a).natAbs = (b - a).natAbs - n := by omega
      refine ⟨b + n, ?_, Or.inr ⟨n, hmem, Or.inr (by omega)⟩, Or.inr ⟨by omega, by omega⟩⟩
      rw [effort, habs]
      exact hrest

/-- No two window increments are further apart than this, and no two points of the other ranges. -/
theorem effort_le {d : ℤ} (h : |d| ≤ 256) : effort d ≤ 21 := by
  have habs : d.natAbs ≤ 256 := by
    rw [Int.abs_eq_natAbs] at h
    omega
  unfold effort
  omega

/-- What lies between two points of a range is in the range. -/
theorem mem_range_of_between {x d low high : DataType} (hd : 0 < d) {a b c : ℤ}
    (hbetween : a ≤ c ∧ c ≤ b ∨ b ≤ c ∧ c ≤ a) (ha : low ≤ x + a / d ∧ x + a / d ≤ high)
    (hb : low ≤ x + b / d ∧ x + b / d ≤ high) : low ≤ x + c / d ∧ x + c / d ≤ high := by
  have hmono : ∀ n m : ℤ, n ≤ m → x + (n : DataType) / d ≤ x + m / d := by
    intro n m h
    have hcast : (n : DataType) ≤ m := by exact_mod_cast h
    gcongr
  rcases hbetween with ⟨hac, hcb⟩ | ⟨hbc, hca⟩
  · exact ⟨ha.1.trans (hmono a c hac), (hmono c b hcb).trans hb.2⟩
  · exact ⟨hb.1.trans (hmono b c hbc), (hmono c a hca).trans ha.2⟩

/-- Two points of a range are not more steps apart than it has room for. -/
theorem abs_steps_le {x d low high : DataType} (hd : 0 < d) {a b k : ℤ}
    (ha : low ≤ x + a / d ∧ x + a / d ≤ high) (hb : low ≤ x + b / d ∧ x + b / d ≤ high)
    (hk : (high - low) * d ≤ k) : |b - a| ≤ k := by
  have hroom : ∀ n m : ℤ, low ≤ x + n / d → x + m / d ≤ high → m - n ≤ k := by
    intro n m hn hm
    have hsteps : (m : DataType) - n = (m / d - n / d) * d := by
      rw [sub_mul, div_mul_cancel₀ _ hd.ne', div_mul_cancel₀ _ hd.ne']
    have hle : ((m - n : ℤ) : DataType) ≤ (high - low) * d := by
      rw [Int.cast_sub, hsteps]
      exact mul_le_mul_of_nonneg_right (by linarith) hd.le
    exact_mod_cast hle.trans hk
  exact abs_sub_le_iff.mpr ⟨hroom a b ha.1 hb.2, hroom b a hb.1 ha.2⟩

/-- A neighbour on the grid is found, when it is eligible. -/
theorem near_of_neighbour {s : OptimizationSetting DataType} {x d : DataType} {a b : ℤ}
    (h : Neighbour a b) (helig : s.eligibleValue (x + b / d)) :
    Near s [1 / d, 1 / d * 4, 1 / d * 4 * 4] (x + a / d) (x + b / d) := by
  rcases h with rfl | ⟨n, hn, hb⟩
  · exact Or.inl rfl
  · have hchange : (n : DataType) / d ∈ [1 / d, 1 / d * 4, 1 / d * 4 * 4] := by
      simp only [List.mem_cons, List.not_mem_nil, or_false] at hn ⊢
      rcases hn with rfl | rfl | rfl
      · exact Or.inl (by push_cast; ring)
      · exact Or.inr (Or.inl (by push_cast; ring))
      · exact Or.inr (Or.inr (by push_cast; ring))
    refine Or.inr ⟨helig, n / d, hchange, hb.imp ?_ ?_⟩ <;> rintro rfl <;> push_cast <;> ring

/-- The same for the window increment, whose alternatives are found modulo `2 ^ 32`. -/
theorem near_windowIncrement_of_neighbour {a b : ℤ} (h : Neighbour a b)
    (helig : getOptimizer.windowIncrement.eligibleValue (Int32.ofInt b).toUInt32) :
    Near getOptimizer.windowIncrement [1, 1 * 4, 1 * 4 * 4] (Int32.ofInt a).toUInt32
      (Int32.ofInt b).toUInt32 := by
  rcases h with rfl | ⟨n, hn, hb⟩
  · exact Or.inl rfl
  · have hchange : (Int32.ofInt n).toUInt32 ∈ [(1 : UInt32), 1 * 4, 1 * 4 * 4] := by
      simp only [List.mem_cons, List.not_mem_nil, or_false] at hn
      rcases hn with rfl | rfl | rfl <;> decide
    refine Or.inr ⟨helig, (Int32.ofInt n).toUInt32, hchange, hb.imp ?_ ?_⟩
    · rintro rfl
      rw [Int32.ofInt_add, Int32.toUInt32_add]
    · rintro rfl
      rw [Int32.ofInt_sub, Int32.toUInt32_sub]

/-- A point of the grid is rounded. -/
theorem rounded_grid {x d : DataType} {q : ℤ} (hd : d * q = 10000) {n : ℤ} (hx : 0 ≤ rounded x)
    (h : 0 ≤ rounded x + n / d) : rounded (rounded x + n / d) = rounded x + n / d := by
  rw [rounded_add_steps hd hx h, rounded_rounded]

/-- **In one generation each parameter can go to a neighbour**, whatever the others do. -/
theorem mem_nextGeneration_moved {w : Whisker} (hw : w.InRange) {turns : ℕ} (hturns : 3 ≤ turns)
    {g : UInt32} {window multiple intersend window' multiple' intersend' : ℤ}
    (h : (moved w g window multiple intersend).InRange)
    (h' : (moved w g window' multiple' intersend').InRange)
    (hwindow : Neighbour window window') (hmultiple : Neighbour multiple multiple')
    (hintersend : Neighbour intersend intersend') :
    ∃ ws, (moved w g window multiple intersend).nextGeneration turns = .ok ws ∧
      moved w (g + 1) window' multiple' intersend' ∈ ws := by
  obtain ⟨ws, hws, hmem⟩ := mem_nextGeneration_iff h hturns
  obtain ⟨-, hm₀, hi₀⟩ := inRange_iff.mp hw
  obtain ⟨ha, hm, hi⟩ := inRange_iff.mp h'
  refine ⟨ws, hws, (hmem _).mpr ⟨(Int32.ofInt window').toUInt32, _, _,
    near_windowIncrement_of_neighbour hwindow ha, near_of_neighbour hmultiple hm,
    near_of_neighbour hintersend hi, ?_⟩⟩
  unfold child
  rw [rounded_grid (q := 100) (by norm_num)
      (nonneg_windowMultiple (eligible_windowMultiple hm₀).1) (nonneg_windowMultiple hm),
    rounded_grid (q := 500) (by norm_num) (nonneg_intersend (eligible_intersend hi₀).1)
      (nonneg_intersend hi)]
  rfl

/-- The point of the grid that belongs to the rule itself. -/
theorem moved_self (w : Whisker) (generation : UInt32) :
    moved w generation w.windowIncrement.toInt 0 0 = { w.withRounded with generation } := by
  simp [moved, withRounded]

/-- Rounding leaves a rule in range, whatever its generation. -/
theorem InRange.withRounded {w : Whisker} (hw : w.InRange) (generation : UInt32) :
    ({ w.withRounded with generation } : Whisker).InRange := by
  obtain ⟨hwindow, hmultiple, hintersend⟩ := inRange_iff.mp hw
  exact inRange_iff.mpr
    ⟨hwindow, (eligible_windowMultiple hmultiple).1, (eligible_intersend hintersend).1⟩

/-- The window increment of a rule in range. -/
theorem InRange.windowIncrement_range {w : Whisker} (hw : w.InRange) :
    0 ≤ w.windowIncrement.toInt ∧ w.windowIncrement.toInt ≤ 256 := ⟨hw.1, hw.2.1⟩

/-- **The search comes everywhere on the grid**, by induction on the number of changes: a point that
is `k + 1` changes away has a neighbour that is `k` changes away, and the ranges have no holes. -/
theorem Descendant.moved {w₀ : Whisker} (h₀ : w₀.InRange) {turns : ℕ} (hturns : 3 ≤ turns) :
    ∀ {k : ℕ} {window multiple intersend : ℤ},
      (Whisker.moved w₀ w₀.generation window multiple intersend).InRange →
      (0 ≤ window ∧ window ≤ 256) → effort (window - w₀.windowIncrement.toInt) ≤ k →
      effort (multiple - 0) ≤ k → effort (intersend - 0) ≤ k →
      Descendant turns w₀ (k + 1) (Whisker.moved w₀ (w₀.generation + UInt32.ofNat (k + 1)) window
        multiple intersend) := by
  intro k
  induction k with
  | zero =>
    intro window multiple intersend _ _ hwindow hmultiple hintersend
    have hzero : ∀ {a b : ℤ}, effort (a - b) ≤ 0 → a = b := by
      intro a b h
      unfold effort at h
      omega
    rw [hzero hwindow, hzero hmultiple, hzero hintersend, moved_self]
    obtain ⟨ws, hws, hmem, -⟩ := nextGeneration_eq_ok h₀ hturns
    exact .next .self hws hmem
  | succ k ih =>
    intro window multiple intersend hin hrange hwindow hmultiple hintersend
    obtain ⟨c, hc, hnext, hbetween⟩ := exists_neighbour hwindow
    obtain ⟨c', hc', hnext', hbetween'⟩ := exists_neighbour hmultiple
    obtain ⟨c'', hc'', hnext'', hbetween''⟩ := exists_neighbour hintersend
    -- the neighbour is in range, between the point and the rule that the search began with
    have hrange₀ := h₀.windowIncrement_range
    have hrangec : 0 ≤ c ∧ c ≤ 256 := by omega
    have hself := moved_self w₀ w₀.generation ▸ h₀.withRounded w₀.generation
    obtain ⟨hstart, hstart'⟩ := (inRange_moved_iff hrange₀).mp hself
    obtain ⟨hend, hend'⟩ := (inRange_moved_iff hrange).mp hin
    have hmid : (Whisker.moved w₀ w₀.generation c c' c'').InRange :=
      (inRange_moved_iff hrangec).mpr ⟨mem_range_of_between (by norm_num) hbetween' hstart hend,
        mem_range_of_between (by norm_num) hbetween'' hstart' hend'⟩
    have hparent := ih hmid hrangec hc hc' hc''
    obtain ⟨ws, hws, hmem⟩ := mem_nextGeneration_moved h₀ hturns
      (g := w₀.generation + UInt32.ofNat (k + 1)) hmid hin hnext
      hnext' hnext''
    have hgeneration : w₀.generation + UInt32.ofNat (k + 1 + 1)
        = w₀.generation + UInt32.ofNat (k + 1) + 1 := by
      rw [UInt32.ofNat_add (k + 1), UInt32.add_assoc]
      rfl
    rw [hgeneration]
    exact .next hparent hws hmem

/-- **What the search can reach.**  From a rule in range, all rules the search comes to are in range
and on the grid through its rounded parameters; and from the 22nd generation on, these are the rules
it comes to, all of them.  So no sequence of improvements closes a part of the grid to it. -/
theorem search_space {w₀ : Whisker} (h₀ : w₀.InRange) {turns : ℕ} (hturns : 3 ≤ turns) {k : ℕ}
    (hk : 22 ≤ k) (w : Whisker) :
    Descendant turns w₀ k w ↔ w.InRange ∧ w.domain = w₀.domain ∧
      w.generation = w₀.generation + UInt32.ofNat k ∧
      (∃ n : ℤ, w.windowMultiple = rounded w₀.windowMultiple + n / 100) ∧
      ∃ n : ℤ, w.intersend = rounded w₀.intersend + n / 20 := by
  constructor
  · intro h
    have hbred := h.bred h₀ hturns
    exact ⟨hbred.inRange, hbred.domain, hbred.generation, h.onGrid h₀ hturns (by omega)⟩
  · rintro ⟨hin, hdomain, hgeneration, hgrid⟩
    obtain ⟨n, m, hw⟩ := OnGrid.eq_moved hgrid hdomain
    obtain ⟨k, rfl⟩ := Nat.exists_eq_add_of_le' (show 1 ≤ k by omega)
    have hrange := hin.windowIncrement_range
    have hrange₀ := h₀.windowIncrement_range
    rw [hw] at hin
    have hself := moved_self w₀ w₀.generation ▸ h₀.withRounded w₀.generation
    obtain ⟨hstart, hstart'⟩ := (inRange_moved_iff hrange₀).mp hself
    obtain ⟨hend, hend'⟩ := (inRange_moved_iff hrange).mp hin
    rw [hw, hgeneration]
    have hfar : ∀ {d : ℤ}, |d| ≤ 256 → effort d ≤ k := fun h => (effort_le h).trans (by omega)
    refine Descendant.moved h₀ hturns hin hrange (hfar ?_) (hfar ?_) (hfar ?_)
    · rw [abs_le]
      omega
    · exact abs_steps_le (by norm_num) hstart hend (by norm_num)
    · exact abs_steps_le (by norm_num) hstart' hend' (by norm_num)

/-- From the default rule the search comes to a rule that waits least and adds a packet to about a
third of the window. -/
theorem search_space_of_default :
    Descendant 3 (ofDomain (.make .init maxMemory)) 22
      ⟨22, 1, 33 / 100, 1 / 4, .make .init maxMemory⟩ :=
  (search_space (show (ofDomain (.make .init maxMemory)).InRange by decide +kernel) le_rfl le_rfl
    _).mpr ⟨by decide +kernel, rfl, by decide +kernel, ⟨-67, by decide +kernel⟩, -55,
      by decide +kernel⟩

end Whisker

end SendReceive
