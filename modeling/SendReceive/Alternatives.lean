import SendReceive.Whisker
import Mathlib.Algebra.Order.Archimedean.Basic
import Mathlib.Tactic.NormNum

/-!
# Alternatives to a value

The optimiser tries other values for a parameter of a rule.  It goes away from the value in both
directions, by changes that grow by a factor from one turn of its loop to the next, and keeps what
lies in the range of the parameter.

Nothing in the sources says that the changes come to an end.  The loop is given a number of turns,
and a computation that needs more than it is given has no result.  With a multiplier greater than
one the changes outgrow every bound, and enough turns give one.

## Main definitions

* `Cut` — computations whose loops are cut off.
* `OptimizationSetting.eligibleValue`, `OptimizationSetting.alternatives`.
* `OptimizationSetting.Steps` — the changes that the loop goes through.
* `OptimizationSetting.change` — the change of each turn.

## Main results

* `OptimizationSetting.explore_eq` — **what the loop finds** when it goes through given changes.
* `OptimizationSetting.mem_alternatives_iff` — **which values are alternatives**.
* `OptimizationSetting.alternatives_reversible` — **all settings whose changes grow**.
-/

namespace SendReceive

/-- Computations whose loops are cut off after a number of turns: they end with `none` when this
happened, and with a reason when they stopped. -/
abbrev Cut (α : Type) := Except (Option Stop) α

/-- A computation without loops. -/
def uncut {α : Type} (x : Except Stop α) : Cut α := x.mapError some

@[simp] theorem uncut_ok {α : Type} (a : α) : uncut (.ok a) = .ok a := rfl

namespace OptimizationSetting

variable {T : Type} [Add T] [Sub T] [Mul T] [LE T] [DecidableLE T]

/-- `OptimizationSetting::eligible_value`. -/
def eligibleValue (s : OptimizationSetting T) (value : T) : Bool :=
  s.minValue ≤ value && value ≤ s.maxValue

/-- The loop of `alternatives` from a proposed change on, for a number of turns at most. -/
def explore (s : OptimizationSetting T) (value : T) (turns : ℕ) (proposedChange : T)
    (ret : List T) : Cut (List T) :=
  if proposedChange ≤ s.maxChange then
    match turns with
    | 0 => .error none
    | turns + 1 =>
      let proposedValueUp := value + proposedChange
      let proposedValueDown := value - proposedChange
      let ret := if s.eligibleValue proposedValueUp then ret ++ [proposedValueUp] else ret
      let ret := if s.eligibleValue proposedValueDown then ret ++ [proposedValueDown] else ret
      explore s value turns (proposedChange * s.multiplier) ret
  else .ok ret

/-- `OptimizationSetting::alternatives`. -/
def alternatives (s : OptimizationSetting T) (turns : ℕ) (value : T) : Cut (List T) :=
  if s.eligibleValue value then s.explore value turns s.minChange [value]
  else .error (some .assertFailed)

/-- The loop goes through the changes `cs`, from the change `c` on. -/
inductive Steps (s : OptimizationSetting T) : T → List T → Prop
  /-- The change is too big, and the loop is left. -/
  | done {c : T} (h : ¬ c ≤ s.maxChange) : Steps s c []
  /-- The change is explored, and the next one is a multiple of it. -/
  | turn {c : T} {cs : List T} (h : c ≤ s.maxChange) (rest : Steps s (c * s.multiplier) cs) :
      Steps s c (c :: cs)

/-- What one turn of the loop finds. -/
def found (s : OptimizationSetting T) (value c : T) : List T :=
  [value + c, value - c].filter s.eligibleValue

variable {s : OptimizationSetting T} {value : T}

/-- One turn of the loop. -/
theorem explore_succ {c : T} (h : c ≤ s.maxChange) (turns : ℕ) (ret : List T) :
    s.explore value (turns + 1) c ret
      = s.explore value turns (c * s.multiplier) (ret ++ s.found value c) := by
  rw [explore, if_pos h]
  by_cases hup : s.eligibleValue (value + c) <;> by_cases hdown : s.eligibleValue (value - c) <;>
    simp [found, hup, hdown]

/-- **What the loop finds**: it goes through the changes in order, and is not cut off when it is
given as many turns. -/
theorem explore_eq {c : T} {cs : List T} (h : Steps s c cs) : ∀ {turns : ℕ} (ret : List T),
    cs.length ≤ turns →
      s.explore value turns c ret = .ok (ret ++ cs.flatMap (s.found value)) := by
  induction h with
  | done hc =>
    intro turns ret _
    rw [explore.eq_def, if_neg hc, List.flatMap_nil, List.append_nil]
  | turn hc rest ih =>
    intro turns ret hturns
    cases turns with
    | zero => simp at hturns
    | succ turns =>
      rw [explore_succ hc, ih _ (by simpa using hturns), List.flatMap_cons, List.append_assoc]

theorem alternatives_eq {cs : List T} (h : Steps s s.minChange cs) {turns : ℕ}
    (hturns : cs.length ≤ turns) (hvalue : s.eligibleValue value) :
    s.alternatives turns value = .ok (value :: cs.flatMap (s.found value)) := by
  rw [alternatives, if_pos hvalue, explore_eq h _ hturns, List.singleton_append]

/-- **Which values are alternatives**: the value itself, and what is eligible among the values one
of the changes away. -/
theorem mem_alternatives_iff {cs : List T} (h : Steps s s.minChange cs) {turns : ℕ}
    (hturns : cs.length ≤ turns) (hvalue : s.eligibleValue value) :
    ∃ alts, s.alternatives turns value = .ok alts ∧ ∀ v, v ∈ alts ↔
      v = value ∨ s.eligibleValue v ∧ ∃ c ∈ cs, v = value + c ∨ v = value - c := by
  refine ⟨_, alternatives_eq h hturns hvalue, fun v => ?_⟩
  rw [List.mem_cons, List.mem_flatMap]
  simp only [found, List.mem_filter, List.mem_cons, List.not_mem_nil, or_false]
  constructor
  · rintro (rfl | ⟨c, hc, hv, helig⟩)
    · exact Or.inl rfl
    · exact Or.inr ⟨helig, c, hc, hv⟩
  · rintro (rfl | ⟨helig, c, hc, hv⟩)
    · exact Or.inl rfl
    · exact Or.inr ⟨c, hc, hv, helig⟩

/-- Alternatives are eligible. -/
theorem eligibleValue_of_mem {cs : List T} (h : Steps s s.minChange cs) {turns : ℕ}
    (hturns : cs.length ≤ turns) (hvalue : s.eligibleValue value) {alts : List T}
    (halts : s.alternatives turns value = .ok alts) {v : T} (hv : v ∈ alts) : s.eligibleValue v := by
  obtain ⟨alts', halts', hmem⟩ := mem_alternatives_iff h hturns hvalue
  obtain rfl := Except.ok.inj (halts.symm.trans halts')
  rcases (hmem v).mp hv with rfl | ⟨helig, -⟩
  · exact hvalue
  · exact helig

/-- There are alternatives to an eligible value: the value is one, and all are eligible. -/
theorem exists_alternatives {cs : List T} (h : Steps s s.minChange cs) {turns : ℕ}
    (hturns : cs.length ≤ turns) (hvalue : s.eligibleValue value) :
    ∃ alts, s.alternatives turns value = .ok alts ∧ value ∈ alts ∧
      ∀ v ∈ alts, s.eligibleValue v := by
  obtain ⟨alts, halts, hmem⟩ := mem_alternatives_iff h hturns hvalue
  exact ⟨alts, halts, (hmem value).mpr (Or.inl rfl),
    fun v hv => eligibleValue_of_mem h hturns hvalue halts hv⟩

/-- With fewer turns the loop is cut off. -/
theorem explore_cut {c : T} {cs : List T} (h : Steps s c cs) : ∀ {turns : ℕ} (ret : List T),
    turns < cs.length → s.explore value turns c ret = .error none := by
  induction h with
  | done hc =>
    intro turns ret hturns
    simp at hturns
  | turn hc rest ih =>
    intro turns ret hturns
    cases turns with
    | zero => rw [explore, if_pos hc]
    | succ turns =>
      rw [explore_succ hc]
      exact ih _ (by simpa using hturns)

/-! ### Settings whose changes grow -/

section Growing

variable {s : OptimizationSetting DataType}

/-- The change that the turn `k` of the loop explores. -/
def change (s : OptimizationSetting DataType) (k : ℕ) : DataType := s.minChange * s.multiplier ^ k

/-- **The changes outgrow the biggest one** in a number of turns. -/
theorem exists_turns (hchange : 0 < s.minChange) (hmultiplier : 1 < s.multiplier) :
    ∃ n, ∀ k, k < n ↔ s.change k ≤ s.maxChange := by
  have hbig : ∃ k, s.maxChange < s.change k := by
    obtain ⟨k, hk⟩ := pow_unbounded_of_one_lt (s.maxChange / s.minChange) hmultiplier
    exact ⟨k, (div_lt_iff₀' hchange).mp hk⟩
  refine ⟨Nat.find hbig, fun k => ⟨fun hk => not_lt.mp (Nat.find_min hbig hk), fun hk => ?_⟩⟩
  -- from the first change that is too big on, all are
  by_contra hn
  have hpow : s.multiplier ^ Nat.find hbig ≤ s.multiplier ^ k :=
    pow_le_pow_right₀ hmultiplier.le (not_lt.mp hn)
  have hle : s.change (Nat.find hbig) ≤ s.change k := mul_le_mul_of_nonneg_left hpow hchange.le
  exact absurd (hle.trans hk) (not_le.mpr (Nat.find_spec hbig))

/-- The loop multiplies the change by one more power in each turn. -/
theorem steps_of_turns {n : ℕ} : ∀ {c : DataType},
    (∀ k, k < n ↔ c * s.multiplier ^ k ≤ s.maxChange) →
      Steps s c ((List.range n).map fun k => c * s.multiplier ^ k) := by
  induction n with
  | zero =>
    intro c h
    refine .done fun hc => ?_
    simpa using (h 0).mpr (by simpa using hc)
  | succ n ih =>
    intro c h
    have hc : c ≤ s.maxChange := by simpa using (h 0).mp n.succ_pos
    have hshift : ∀ k, c * s.multiplier ^ (k + 1) = c * s.multiplier * s.multiplier ^ k := by
      intro k
      ring
    rw [List.range_succ_eq_map, List.map_cons, List.map_map, pow_zero, mul_one]
    refine .turn hc ?_
    simp only [Function.comp_def, Nat.succ_eq_add_one, hshift]
    refine ih fun k => ?_
    rw [← hshift, ← h (k + 1)]
    omega

/-- **The exploration is complete, in range and reversible.**  The loop takes as many turns as there
are changes up to the biggest one; it finds the value and the eligible values one change away, in
the order of the changes and upwards first; and from each of them it finds the value again. -/
theorem alternatives_reversible (hchange : 0 < s.minChange) (hmultiplier : 1 < s.multiplier) :
    ∃ n, (∀ k, k < n ↔ s.change k ≤ s.maxChange) ∧ ∀ value, s.eligibleValue value →
      (∀ turns < n, s.alternatives turns value = .error none) ∧
      ∀ turns, n ≤ turns → ∃ alts, s.alternatives turns value = .ok alts ∧
        alts = value :: (List.range n).flatMap (fun k =>
          [value + s.change k, value - s.change k].filter fun v =>
            s.minValue ≤ v ∧ v ≤ s.maxValue) ∧
        ∀ v ∈ alts, ∃ alts', s.alternatives turns v = .ok alts' ∧ value ∈ alts' := by
  obtain ⟨n, hn⟩ := exists_turns hchange hmultiplier
  have hsteps : Steps s s.minChange ((List.range n).map s.change) := steps_of_turns hn
  have hlength : ((List.range n).map s.change).length = n := by simp
  refine ⟨n, hn, fun value hvalue => ⟨fun turns hturns => ?_, fun turns hturns => ?_⟩⟩
  · rw [alternatives, if_pos hvalue]
    exact explore_cut hsteps _ (hlength.symm ▸ hturns)
  · have henough : ((List.range n).map s.change).length ≤ turns := hlength.symm ▸ hturns
    obtain ⟨alts, halts, hmem⟩ := mem_alternatives_iff hsteps henough hvalue
    refine ⟨alts, halts, ?_, fun v hv => ?_⟩
    · have heq := (alternatives_eq hsteps henough hvalue).symm.trans halts
      have hrange : (fun v => decide (s.minValue ≤ v ∧ v ≤ s.maxValue)) = s.eligibleValue :=
        funext fun v => Bool.decide_and _ _
      rw [← Except.ok.inj heq, List.flatMap_map, hrange]
      rfl
    · have helig : s.eligibleValue v := eligibleValue_of_mem hsteps henough hvalue halts hv
      obtain ⟨alts', halts', hmem'⟩ := mem_alternatives_iff hsteps henough helig
      refine ⟨alts', halts', (hmem' value).mpr ?_⟩
      -- the same change leads back, the other way
      rcases (hmem v).mp hv with rfl | ⟨-, c, hc, rfl | rfl⟩
      · exact Or.inl rfl
      · exact Or.inr ⟨hvalue, c, hc, Or.inr (add_sub_cancel_right value c).symm⟩
      · exact Or.inr ⟨hvalue, c, hc, Or.inl (sub_add_cancel value c).symm⟩

/-- From three milliseconds the optimiser tries a twentieth less, and from there three again. -/
theorem alternatives_reversible_of_intersend :
    ∃ alts, getOptimizer.intersend.alternatives 3 (59 / 20) = .ok alts ∧ 3 ∈ alts := by
  obtain ⟨n, hn, hvalue⟩ := alternatives_reversible (s := getOptimizer.intersend)
    (by norm_num [getOptimizer]) (by norm_num [getOptimizer])
  have hthree : n ≤ 3 := by
    by_contra hlt
    have hchange := (hn 3).mp (not_le.mp hlt)
    norm_num [change, getOptimizer] at hchange
  obtain ⟨alts, halts, -, hback⟩ := (hvalue 3 (by decide +kernel)).2 3 hthree
  have hlist : getOptimizer.intersend.alternatives 3 3 = .ok [3, 59 / 20, 14 / 5, 11 / 5] := by
    decide +kernel
  obtain rfl := Except.ok.inj (hlist.symm.trans halts)
  exact hback (59 / 20) (by simp)

end Growing

end OptimizationSetting

end SendReceive
