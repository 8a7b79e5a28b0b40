import SendReceive.Alternatives
import Mathlib.Tactic.NormNum

/-!
# Generations of rules

The optimiser replaces a rule by the best of its next generation: the rules whose parameters are
alternatives to its own, in all combinations, rounded to a ten-thousandth.

The rounding comes after the check that a value is eligible, and it truncates.  It does not leave
the ranges, since their ends are multiples of a ten-thousandth, so that a rule of the next
generation has a next generation itself.

## Main definitions

* `Whisker.round`, `Whisker.nextGeneration`.
* `Whisker.Descendant` — the rules a number of generations after a rule.

## Main results

* `Whisker.nextGeneration_eq_ok` — **a rule in range has a next generation**.
* `Whisker.generations_closed` — what holds of all descendants.
-/

namespace SendReceive

namespace Whisker

/-- `Whisker::round`. -/
def round (w : Whisker) : Except Stop Whisker := do
  let windowMultiple ← toInt (10000 * w.windowMultiple)
  let intersend ← toInt (10000 * w.intersend)
  return { w with
    windowMultiple := 1 / 10000 * windowMultiple
    intersend := 1 / 10000 * intersend }

/-- The body of the loops of `next_generation`. -/
def newWhisker (w : Whisker) (altWindow : UInt32) (altMultiple altIntersend : DataType) :
    Except Stop Whisker :=
  round { w with
    generation := w.generation + 1
    windowIncrement := altWindow.toInt32
    windowMultiple := altMultiple
    intersend := altIntersend }

/-- `Whisker::next_generation`, with a number of turns for the loop of each `alternatives`. -/
def nextGeneration (turns : ℕ) (w : Whisker) : Cut (List Whisker) := do
  let altWindows ← getOptimizer.windowIncrement.alternatives turns w.windowIncrement.toUInt32
  let found ← altWindows.mapM fun altWindow => do
    let altMultiples ← getOptimizer.windowMultiple.alternatives turns w.windowMultiple
    let found ← altMultiples.mapM fun altMultiple => do
      let altIntersends ← getOptimizer.intersend.alternatives turns w.intersend
      altIntersends.mapM fun altIntersend =>
        uncut (w.newWhisker altWindow altMultiple altIntersend)
    return found.flatten
  return found.flatten

/-! ### The ranges -/

/-- The action is in range when its parameters are eligible values. -/
theorem inRange_iff {w : Whisker} :
    w.InRange ↔ getOptimizer.windowIncrement.eligibleValue w.windowIncrement.toUInt32 ∧
      getOptimizer.windowMultiple.eligibleValue w.windowMultiple ∧
      getOptimizer.intersend.eligibleValue w.intersend := by
  have hvalue := toInt_toInt32 w.windowIncrement.toUInt32
  rw [Int32.toInt32_toUInt32] at hvalue
  have hwindow : 0 ≤ w.windowIncrement.toInt ∧ w.windowIncrement.toInt ≤ 256 ↔
      w.windowIncrement.toUInt32.toNat ≤ 256 := by
    have hlt := w.windowIncrement.toUInt32.toNat_lt
    rw [hvalue]
    split <;> omega
  unfold InRange
  simp [OptimizationSetting.eligibleValue, getOptimizer, UInt32.le_iff_toNat_le, ← hwindow,
    and_assoc]

/-- The changes of the window increment are one, four and sixteen packets. -/
theorem steps_windowIncrement : getOptimizer.windowIncrement.Steps 1 [1, 1 * 4, 1 * 4 * 4] :=
  .turn (by decide) (.turn (by decide) (.turn (by decide) (.done (by decide))))

theorem steps_windowMultiple :
    getOptimizer.windowMultiple.Steps (1 / 100) [1 / 100, 1 / 100 * 4, 1 / 100 * 4 * 4] := by
  refine .turn ?_ (.turn ?_ (.turn ?_ (.done ?_))) <;> norm_num [getOptimizer]

theorem steps_intersend :
    getOptimizer.intersend.Steps (1 / 20) [1 / 20, 1 / 20 * 4, 1 / 20 * 4 * 4] := by
  refine .turn ?_ (.turn ?_ (.turn ?_ (.done ?_))) <;> norm_num [getOptimizer]

/-! ### Rounding -/

/-- A number without what is beyond its ten-thousandths. -/
def rounded (x : DataType) : DataType := 1 / 10000 * truncate (10000 * x)

theorem rounded_div (n : ℤ) : rounded (n / 10000) = n / 10000 := by
  have hn : (10000 : DataType) * (n / 10000) = n := by ring
  rw [rounded, hn]
  simp [truncate]
  ring

/-- **Rounding stays in a range** whose ends are ten-thousandths. -/
theorem eligibleValue_rounded {s : OptimizationSetting DataType} {n m : ℤ} (hn : 0 ≤ n)
    (hmin : s.minValue = n / 10000) (hmax : s.maxValue = m / 10000) {x : DataType}
    (h : s.eligibleValue x) :
    s.eligibleValue (rounded x) ∧ n ≤ truncate (10000 * x) ∧ truncate (10000 * x) ≤ m := by
  simp only [OptimizationSetting.eligibleValue, Bool.and_eq_true, decide_eq_true_eq] at h ⊢
  have hlow : (n : DataType) ≤ 10000 * x := by linarith
  have hhigh : 10000 * x ≤ m := by linarith
  have hle : n ≤ truncate (10000 * x) := le_truncate hn hlow
  have hle' : truncate (10000 * x) ≤ m := by
    have hpos : (0 : DataType) ≤ 10000 * x := le_trans (by exact_mod_cast hn) hlow
    rw [truncate_of_nonneg hpos]
    exact Int.cast_le.mp (le_trans (Int.floor_le (10000 * x)) hhigh)
  refine ⟨⟨?_, ?_⟩, hle, hle'⟩
  · have hcast : (n : DataType) ≤ truncate (10000 * x) := by exact_mod_cast hle
    rw [rounded]
    linarith
  · have hcast : (truncate (10000 * x) : DataType) ≤ m := by exact_mod_cast hle'
    rw [rounded]
    linarith

theorem eligible_windowMultiple {x : DataType} (h : getOptimizer.windowMultiple.eligibleValue x) :
    getOptimizer.windowMultiple.eligibleValue (rounded x) ∧
      0 ≤ truncate (10000 * x) ∧ truncate (10000 * x) ≤ 10000 :=
  eligibleValue_rounded le_rfl (by norm_num [getOptimizer]) (by norm_num [getOptimizer]) h

theorem eligible_intersend {x : DataType} (h : getOptimizer.intersend.eligibleValue x) :
    getOptimizer.intersend.eligibleValue (rounded x) ∧
      2500 ≤ truncate (10000 * x) ∧ truncate (10000 * x) ≤ 30000 :=
  eligibleValue_rounded (by norm_num) (by norm_num [getOptimizer]) (by norm_num [getOptimizer]) h

/-- The parameters of the rule are ten-thousandths. -/
def Rounded (w : Whisker) : Prop :=
  ∃ n m : ℤ, w.windowMultiple = n / 10000 ∧ w.intersend = m / 10000

/-- The rule with its own parameters rounded. -/
def withRounded (w : Whisker) : Whisker :=
  { w with windowMultiple := rounded w.windowMultiple, intersend := rounded w.intersend }

/-- **Rounding a rule in range** comes to its end. -/
theorem round_eq_ok {w : Whisker}
    (hmultiple : getOptimizer.windowMultiple.eligibleValue w.windowMultiple)
    (hintersend : getOptimizer.intersend.eligibleValue w.intersend) :
    w.round = .ok w.withRounded := by
  obtain ⟨-, hm, hm'⟩ := eligible_windowMultiple hmultiple
  obtain ⟨-, hi, hi'⟩ := eligible_intersend hintersend
  rw [round, toInt, if_pos (by omega), ok_bind, toInt, if_pos (by omega), ok_bind]
  rfl

theorem withRounded_eq_self {w : Whisker} (h : w.Rounded) : w.withRounded = w := by
  obtain ⟨n, m, hn, hm⟩ := h
  rw [withRounded, hn, hm, rounded_div, rounded_div, ← hn, ← hm]

/-! ### The next generation -/

/-- The rule of the next generation with given parameters. -/
def child (w : Whisker) (altWindow : UInt32) (altMultiple altIntersend : DataType) : Whisker where
  generation := w.generation + 1
  windowIncrement := altWindow.toInt32
  windowMultiple := rounded altMultiple
  intersend := rounded altIntersend
  domain := w.domain

/-- **The body of the loops** makes a child, from eligible parameters. -/
theorem newWhisker_eq_ok (w : Whisker) (altWindow : UInt32) {altMultiple altIntersend : DataType}
    (hmultiple : getOptimizer.windowMultiple.eligibleValue altMultiple)
    (hintersend : getOptimizer.intersend.eligibleValue altIntersend) :
    w.newWhisker altWindow altMultiple altIntersend
      = .ok (w.child altWindow altMultiple altIntersend) := by
  unfold newWhisker
  exact round_eq_ok hmultiple hintersend

/-- The child with the rule's own parameters. -/
theorem child_self (w : Whisker) :
    w.child w.windowIncrement.toUInt32 w.windowMultiple w.intersend
      = { w.withRounded with generation := w.generation + 1 } := rfl

/-- A child with eligible parameters is in range, and rounded. -/
theorem inRange_child (w : Whisker) {altWindow : UInt32} {altMultiple altIntersend : DataType}
    (hwindow : getOptimizer.windowIncrement.eligibleValue altWindow)
    (hmultiple : getOptimizer.windowMultiple.eligibleValue altMultiple)
    (hintersend : getOptimizer.intersend.eligibleValue altIntersend) :
    (w.child altWindow altMultiple altIntersend).InRange ∧
      (w.child altWindow altMultiple altIntersend).Rounded := by
  refine ⟨inRange_iff.mpr ⟨hwindow, ?_, ?_⟩, truncate (10000 * altMultiple),
    truncate (10000 * altIntersend), one_div_mul_eq_div _ _, one_div_mul_eq_div _ _⟩
  · exact (eligible_windowMultiple hmultiple).1
  · exact (eligible_intersend hintersend).1

/-- **A rule in range has a next generation**, of children with eligible parameters, and the child
with its own parameters is one of them. -/
theorem nextGeneration_eq_ok {w : Whisker} (hw : w.InRange) {turns : ℕ} (hturns : 3 ≤ turns) :
    ∃ ws, w.nextGeneration turns = .ok ws ∧
      w.child w.windowIncrement.toUInt32 w.windowMultiple w.intersend ∈ ws ∧
      ∀ w' ∈ ws, ∃ altWindow altMultiple altIntersend,
        getOptimizer.windowIncrement.eligibleValue altWindow ∧
        getOptimizer.windowMultiple.eligibleValue altMultiple ∧
        getOptimizer.intersend.eligibleValue altIntersend ∧
        w' = w.child altWindow altMultiple altIntersend := by
  obtain ⟨hwindow, hmultiple, hintersend⟩ := inRange_iff.mp hw
  obtain ⟨as, has, hmemA, hA⟩ :=
    OptimizationSetting.exists_alternatives steps_windowIncrement hturns hwindow
  obtain ⟨ms, hms, hmemM, hM⟩ :=
    OptimizationSetting.exists_alternatives steps_windowMultiple hturns hmultiple
  obtain ⟨is, his, hmemI, hI⟩ :=
    OptimizationSetting.exists_alternatives steps_intersend hturns hintersend
  -- the loops go through all combinations, from the inside out
  have hnew : ∀ a ∈ as, ∀ m ∈ ms, ∀ i ∈ is,
      uncut (w.newWhisker a m i) = .ok (w.child a m i) := by
    intro a ha m hm i hi
    rw [newWhisker_eq_ok w a (hM m hm) (hI i hi), uncut_ok]
  have hloops : w.nextGeneration turns
      = .ok (as.map fun a => (ms.map fun m => is.map fun i => w.child a m i).flatten).flatten := by
    rw [nextGeneration, has, ok_bind, hms, his]
    simp only [ok_bind]
    rw [mapM_eq_ok fun a ha => ?_, ok_bind]
    · rfl
    · rw [mapM_eq_ok fun m hm => mapM_eq_ok fun i hi => hnew a ha m hm i hi, ok_bind]
      rfl
  refine ⟨_, hloops, ?_, ?_⟩
  · refine List.mem_flatten_of_mem (List.mem_map_of_mem hmemA) ?_
    exact List.mem_flatten_of_mem (List.mem_map_of_mem hmemM) (List.mem_map_of_mem hmemI)
  · intro w' hw'
    obtain ⟨_, hl, hw'⟩ := List.mem_flatten.mp hw'
    obtain ⟨a, ha, rfl⟩ := List.mem_map.mp hl
    obtain ⟨_, hl, hw'⟩ := List.mem_flatten.mp hw'
    obtain ⟨m, hm, rfl⟩ := List.mem_map.mp hl
    obtain ⟨i, hi, rfl⟩ := List.mem_map.mp hw'
    exact ⟨a, m, i, hA a ha, hM m hm, hI i hi, rfl⟩

/-! ### Chains of generations -/

/-- The rules that are `k` generations after a rule. -/
inductive Descendant (turns : ℕ) (w₀ : Whisker) : ℕ → Whisker → Prop
  /-- The rule itself. -/
  | self : Descendant turns w₀ 0 w₀
  /-- An element of the next generation of a descendant. -/
  | next {k : ℕ} {w w' : Whisker} {ws : List Whisker} (parent : Descendant turns w₀ k w)
      (hws : w.nextGeneration turns = .ok ws) (mem : w' ∈ ws) : Descendant turns w₀ (k + 1) w'

/-- What holds of the rules `k` generations after a rule. -/
structure Bred (w₀ : Whisker) (k : ℕ) (w : Whisker) : Prop where
  inRange : w.InRange
  rounded : 1 ≤ k → w.Rounded
  domain : w.domain = w₀.domain
  generation : w.generation = w₀.generation + UInt32.ofNat k

/-- A rule of the next generation. -/
theorem Bred.next {w₀ w w' : Whisker} {k turns : ℕ} {ws : List Whisker} (h : Bred w₀ k w)
    (hturns : 3 ≤ turns) (hws : w.nextGeneration turns = .ok ws) (hmem : w' ∈ ws) :
    Bred w₀ (k + 1) w' := by
  obtain ⟨ws', hws', -, hchildren⟩ := nextGeneration_eq_ok h.inRange hturns
  obtain rfl := Except.ok.inj (hws.symm.trans hws')
  obtain ⟨a, m, i, ha, hm, hi, rfl⟩ := hchildren w' hmem
  obtain ⟨hin, hround⟩ := inRange_child w ha hm hi
  refine ⟨hin, fun _ => hround, h.domain, ?_⟩
  show w.generation + 1 = w₀.generation + UInt32.ofNat (k + 1)
  rw [h.generation, UInt32.ofNat_add, ← UInt32.add_assoc]
  rfl

/-- **What holds of all descendants**, by induction along the chain. -/
theorem Descendant.bred {w₀ : Whisker} (h₀ : w₀.InRange) {turns : ℕ} (hturns : 3 ≤ turns) {k : ℕ}
    {w : Whisker} (h : Descendant turns w₀ k w) : Bred w₀ k w := by
  induction h with
  | self => exact ⟨h₀, fun hk => absurd hk (by omega), rfl, (UInt32.add_zero _).symm⟩
  | next parent hws mem ih => exact ih.next hturns hws mem

/-- **The search space is closed under iteration.**  Along every chain of generations from a rule
in range no assertion fails, no conversion is undefined and all loops end; the rules after the first
one are in range and rounded, they have its domain and count its generation on; and the next
generation of each has the child with its own rounded parameters. -/
theorem generations_closed {w₀ : Whisker} (h₀ : w₀.InRange) {turns : ℕ} (hturns : 3 ≤ turns)
    {k : ℕ} {w : Whisker} (h : Descendant turns w₀ k w) :
    (1 ≤ k → w.InRange ∧ w.Rounded) ∧ w.domain = w₀.domain ∧
    w.generation = w₀.generation + UInt32.ofNat k ∧
    ∃ ws r, w.nextGeneration turns = .ok ws ∧ w.round = .ok r ∧
      { r with generation := w.generation + 1 } ∈ ws ∧ (1 ≤ k → r = w) := by
  have hbred := h.bred h₀ hturns
  obtain ⟨ws, hws, hmem, -⟩ := nextGeneration_eq_ok hbred.inRange hturns
  obtain ⟨-, hmultiple, hintersend⟩ := inRange_iff.mp hbred.inRange
  refine ⟨fun hk => ⟨hbred.inRange, hbred.rounded hk⟩, hbred.domain, hbred.generation, ws,
    w.withRounded, hws, round_eq_ok hmultiple hintersend, ?_, fun hk => ?_⟩
  · exact child_self w ▸ hmem
  · exact withRounded_eq_self (hbred.rounded hk)

/-- The default rule. -/
theorem generations_closed_of_default :
    ∃ ws r, (ofDomain (.make .init maxMemory)).nextGeneration 3 = .ok ws ∧
      (ofDomain (.make .init maxMemory)).round = .ok r ∧ { r with generation := 1 } ∈ ws := by
  obtain ⟨-, -, -, ws, r, hws, hr, hmem, -⟩ :=
    generations_closed (show (ofDomain (.make .init maxMemory)).InRange by decide +kernel)
      le_rfl .self
  exact ⟨ws, r, hws, hr, hmem⟩

end Whisker

end SendReceive
