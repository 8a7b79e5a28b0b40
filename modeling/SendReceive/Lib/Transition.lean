import Mathlib.Data.List.Induction

/-!
# Runs of a partial step function

A system is a partial function `step : σ → ε → Option σ`: the event `e` is
enabled in the state `s` when `step s e` is a state.  A run is a list of events,
each enabled in the state the ones before it lead to.

The invariants of a protocol speak about the state *and* about what has happened
so far, so the induction rule is stated for relations between the list of events
of a run and the state it ends in.

A property of the past that the states do not show is kept in a ghost variable, which
is updated along with them and has no influence on what is enabled.

## Main definitions

* `exec` — the state a list of events leads to.
* `ghost` — a system with a ghost variable.

## Main results

* `exec_append`, `exec_snoc` — runs compose.
* `exec_induct` — what holds initially and is preserved by each step of a run
  holds at the end of every run.
* `exec_invariant`, `exec_invariant_of` — the same for properties of the states alone.
* `exec_ghost` — a ghost variable changes no run.
-/

namespace Transition

variable {σ ε : Type*} {step : σ → ε → Option σ}

/-- The state the events `es` lead to from `s`, or `none` when one of them is
not enabled. -/
def exec (step : σ → ε → Option σ) : σ → List ε → Option σ
  | s, [] => some s
  | s, e :: es => (step s e).bind fun s' => exec step s' es

@[simp] theorem exec_nil (s : σ) : exec step s [] = some s := rfl

@[simp] theorem exec_cons (s : σ) (e : ε) (es : List ε) :
    exec step s (e :: es) = (step s e).bind fun s' => exec step s' es := rfl

theorem exec_singleton (s : σ) (e : ε) : exec step s [e] = step s e := by
  rw [exec_cons]
  cases step s e <;> rfl

theorem exec_append : ∀ (es fs : List ε) (s : σ),
    exec step s (es ++ fs) = (exec step s es).bind fun s' => exec step s' fs := by
  intro es
  induction es with
  | nil => intro fs s; rfl
  | cons e es ih =>
    intro fs s
    rw [List.cons_append, exec_cons, exec_cons]
    cases step s e with
    | none => rfl
    | some s' => exact ih fs s'

/-- A run that continues passes through a state in the middle. -/
theorem exec_append_eq_some {es fs : List ε} {s s' : σ} :
    exec step s (es ++ fs) = some s' ↔
      ∃ m, exec step s es = some m ∧ exec step m fs = some s' := by
  rw [exec_append, Option.bind_eq_some_iff]

/-- A run ends with its last step. -/
theorem exec_snoc {es : List ε} {e : ε} {s s' : σ} :
    exec step s (es ++ [e]) = some s' ↔
      ∃ m, exec step s es = some m ∧ step m e = some s' := by
  rw [exec_append_eq_some]
  simp only [exec_singleton]

/-- **The invariant rule.**  A relation between the events of a run and the state
it ends in holds of every run from `s₀` once it holds of the empty run and every
enabled event preserves it. -/
theorem exec_induct {s₀ : σ} {P : List ε → σ → Prop} (init : P [] s₀)
    (preserve : ∀ es s e s', exec step s₀ es = some s → P es s → step s e = some s' →
      P (es ++ [e]) s') :
    ∀ (es : List ε) (s : σ), exec step s₀ es = some s → P es s := by
  intro es
  induction es using List.reverseRecOn with
  | nil =>
    intro s h
    rw [exec_nil, Option.some.injEq] at h
    exact h ▸ init
  | append_singleton es e ih =>
    intro s' h
    obtain ⟨s, hrun, hstep⟩ := exec_snoc.mp h
    exact preserve es s e s' hrun (ih s hrun) hstep

/-- The rule for a property of the states, in a run whose events have the property `E`. -/
theorem exec_invariant_of {I : σ → Prop} {E : ε → Prop} {s₀ s : σ} {es : List ε} (init : I s₀)
    (preserve : ∀ s e s', E e → I s → step s e = some s' → I s')
    (hrun : exec step s₀ es = some s) (hes : ∀ e ∈ es, E e) : I s := by
  refine exec_induct (P := fun es s => (∀ e ∈ es, E e) → I s) (fun _ => init) ?_ es s hrun hes
  intro es s e s' _ ih hstep hall
  have hs : I s := ih fun x hx => hall x (List.mem_append_left [e] hx)
  exact preserve s e s' (hall e (by simp)) hs hstep

/-- **The rule for a property of the states.** -/
theorem exec_invariant {I : σ → Prop} {s₀ s : σ} {es : List ε} (init : I s₀)
    (preserve : ∀ s e s', I s → step s e = some s' → I s') (hrun : exec step s₀ es = some s) :
    I s :=
  exec_invariant_of (E := fun _ => True) init (fun s e s' _ => preserve s e s') hrun
    fun _ _ => trivial

/-- The events of a kind in a run with one more step. -/
theorem countP_concat (p : ε → Bool) (es : List ε) (e : ε) :
    (es ++ [e]).countP p = es.countP p + (p e).toNat := by
  rw [List.countP_append, List.countP_singleton]
  cases p e <;> rfl

/-! ### Ghost variables -/

section Ghost

variable {γ : Type*} {update : σ → ε → σ → γ → γ}

/-- The system with a ghost variable that `update` changes in each step. -/
def ghost (step : σ → ε → Option σ) (update : σ → ε → σ → γ → γ) (s : σ × γ) (e : ε) :
    Option (σ × γ) :=
  (step s.1 e).map fun s' => (s', update s.1 e s' s.2)

theorem ghost_eq_some {s t : σ × γ} {e : ε} :
    ghost step update s e = some t ↔ step s.1 e = some t.1 ∧ t.2 = update s.1 e t.1 s.2 := by
  unfold ghost
  rw [Option.map_eq_some_iff]
  constructor
  · rintro ⟨s', hs', rfl⟩
    exact ⟨hs', rfl⟩
  · rintro ⟨hstep, hghost⟩
    exact ⟨t.1, hstep, Prod.ext rfl hghost.symm⟩

/-- **A ghost variable changes no run.** -/
theorem exec_ghost (es : List ε) : ∀ s : σ × γ,
    (exec (ghost step update) s es).map Prod.fst = exec step s.1 es := by
  induction es with
  | nil => intro s; rfl
  | cons e es ih =>
    intro s
    rw [exec_cons, exec_cons, ghost]
    cases step s.1 e with
    | none => rfl
    | some s' => exact ih (s', update s.1 e s' s.2)

/-- A run has a value of the ghost variable. -/
theorem exists_ghost {es : List ε} {s t : σ} (g : γ) (h : exec step s es = some t) :
    ∃ g', exec (ghost step update) (s, g) es = some (t, g') := by
  have hmap : (exec (ghost step update) (s, g) es).map Prod.fst = exec step s es :=
    exec_ghost es (s, g)
  rw [h] at hmap
  obtain ⟨⟨t', g'⟩, hexec, rfl⟩ := Option.map_eq_some_iff.mp hmap
  exact ⟨g', hexec⟩

end Ghost

end Transition
