import SendReceive.Lib.Transition

/-!
# Computations in lockstep

Two computations are in lockstep up to a relation `R` when both fail in the same way, or both
succeed and their results are related by `R`.  Two transition systems with the same events are in
lockstep up to `R` when from related states the same events are enabled and lead to related states:
`R` is then a bisimulation, and whatever can be observed of related states can be observed of whole
runs.

## Main definitions

* `Lockstep` — fallible computations that agree up to a relation.

## Main results

* `Lockstep.bind`, `Lockstep.map` — agreement composes.
* `Transition.exec_rel` — **steps in lockstep are runs in lockstep**.
-/

/-- Both computations fail in the same way, or both succeed with related results. -/
inductive Lockstep {ε α β : Type} (R : α → β → Prop) : Except ε α → Except ε β → Prop
  | error (e : ε) : Lockstep R (.error e) (.error e)
  | ok {a : α} {b : β} (h : R a b) : Lockstep R (.ok a) (.ok b)

namespace Lockstep

variable {ε α β α' β' : Type} {R : α → β → Prop} {R' : α' → β' → Prop}

/-- A computation is in lockstep with itself. -/
theorem of_eq (x : Except ε α) : Lockstep Eq x x := by
  cases x with
  | error e => exact .error e
  | ok a => exact .ok rfl

/-- Computations that go on in lockstep stay in lockstep. -/
theorem bind {x : Except ε α} {y : Except ε β} {f : α → Except ε α'} {g : β → Except ε β'}
    (h : Lockstep R x y) (hfg : ∀ a b, R a b → Lockstep R' (f a) (g b)) :
    Lockstep R' (x >>= f) (y >>= g) := by
  cases h with
  | error e => exact .error e
  | ok hab => exact hfg _ _ hab

theorem map {x : Except ε α} {y : Except ε β} {f : α → α'} {g : β → β'}
    (h : Lockstep R x y) (hfg : ∀ a b, R a b → R' (f a) (g b)) :
    Lockstep R' (x.map f) (y.map g) := by
  cases h with
  | error e => exact .error e
  | ok hab => exact .ok (hfg _ _ hab)

end Lockstep

namespace Transition

variable {σ τ ε : Type*} {R : σ → τ → Prop} {step : σ → ε → Option σ} {step' : τ → ε → Option τ}

/-- Both systems take the same branch. -/
theorem rel_ite {P : Prop} [Decidable P] {x y : Option σ} {x' y' : Option τ}
    (h : Option.Rel R x x') (h' : Option.Rel R y y') :
    Option.Rel R (if P then x else y) (if P then x' else y') := by
  split
  · exact h
  · exact h'

/-- **Steps in lockstep are runs in lockstep.** -/
theorem exec_rel (h : ∀ s t e, R s t → Option.Rel R (step s e) (step' t e)) (es : List ε) :
    ∀ {s : σ} {t : τ}, R s t → Option.Rel R (exec step s es) (exec step' t es) := by
  induction es with
  | nil => intro s t hst; exact .some hst
  | cons e es ih =>
    intro s t hst
    rw [exec_cons, exec_cons]
    generalize hx : step s e = x, hy : step' t e = y
    have hxy := h s t e hst
    rw [hx, hy] at hxy
    cases hxy with
    | none => exact .none
    | some hst' => exact ih hst'

end Transition
