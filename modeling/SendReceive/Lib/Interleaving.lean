import SendReceive.Lib.Transition

/-!
# Systems that are made of parts

A system has parts, each a partial step function of its own, which sees some of the events.  When
every event takes the parts that see it one step and leaves the others alone, and is enabled when it
is enabled for them, the runs of the system are the interleavings of runs of its parts.

## Main definitions

* `Interleaving` — one event of a system, and of its parts.

## Main results

* `Interleaving.exec_part` — **a run of the system is one of each part**.
* `Interleaving.exists_exec` — **runs of the parts are a run of the system**.
-/

namespace Transition

variable {σ ε ι τ η : Type*} {step : σ → ε → Option σ} {partStep : ι → τ → η → Option τ}
  {state : ι → σ → τ} {event : ι → ε → Option η} {Good : σ → Prop}

/-- **A system and its parts**: `state i` is what a state of the system shows of the part `i`,
`event i` what an event is for it, if it sees it; this is so in the states that are `Good`. -/
structure Interleaving (step : σ → ε → Option σ) (partStep : ι → τ → η → Option τ)
    (state : ι → σ → τ) (event : ι → ε → Option η) (Good : σ → Prop) : Prop where
  good : ∀ {s e s'}, Good s → step s e = some s' → Good s'
  part : ∀ {s e s'}, Good s → step s e = some s' →
    ∀ i, exec (partStep i) (state i s) (event i e).toList = some (state i s')
  enabled : ∀ {s e}, Good s →
    (∀ i, ∃ x, exec (partStep i) (state i s) (event i e).toList = some x) → ∃ s', step s e = some s'

namespace Interleaving

theorem filterMap_cons_eq (f : ε → Option η) (e : ε) (es : List ε) :
    (e :: es).filterMap f = (f e).toList ++ es.filterMap f := by
  cases h : f e with
  | none => rw [List.filterMap_cons_none h]; rfl
  | some x => rw [List.filterMap_cons_some h]; rfl

/-- **A run of the system is a run of each part**, in the events that the part sees. -/
theorem exec_part (h : Interleaving step partStep state event Good) {es : List ε} :
    ∀ {s s' : σ}, Good s → exec step s es = some s' →
      ∀ i, exec (partStep i) (state i s) (es.filterMap (event i)) = some (state i s') := by
  induction es with
  | nil =>
    intro s s' _ hrun i
    obtain rfl := Option.some.inj hrun
    rfl
  | cons e es ih =>
    intro s s' hs hrun i
    rw [exec_cons] at hrun
    obtain ⟨m, hstep, hrest⟩ := Option.bind_eq_some_iff.mp hrun
    rw [filterMap_cons_eq, exec_append_eq_some]
    exact ⟨state i m, h.part hs hstep i, ih (h.good hs hstep) hrest i⟩

/-- **Runs of the parts are a run of the system**, however their events are interleaved. -/
theorem exists_exec (h : Interleaving step partStep state event Good) {es : List ε} :
    ∀ {s : σ}, Good s →
      (∀ i, ∃ x, exec (partStep i) (state i s) (es.filterMap (event i)) = some x) →
      ∃ s', exec step s es = some s' := by
  induction es with
  | nil => exact fun {s} _ _ => ⟨s, rfl⟩
  | cons e es ih =>
    intro s hs hparts
    -- the first event is enabled for each part
    have hfirst : ∀ i, ∃ x, exec (partStep i) (state i s) (event i e).toList = some x := by
      intro i
      obtain ⟨x, hx⟩ := hparts i
      rw [filterMap_cons_eq, exec_append_eq_some] at hx
      obtain ⟨m, hm, -⟩ := hx
      exact ⟨m, hm⟩
    obtain ⟨m, hstep⟩ := h.enabled hs hfirst
    have hrest : ∀ i, ∃ x, exec (partStep i) (state i m) (es.filterMap (event i)) = some x := by
      intro i
      obtain ⟨x, hx⟩ := hparts i
      rw [filterMap_cons_eq, exec_append_eq_some] at hx
      obtain ⟨m', hm', hx⟩ := hx
      obtain rfl := Option.some.inj ((h.part hs hstep i).symm.trans hm')
      exact ⟨x, hx⟩
    obtain ⟨s', hs'⟩ := ih (h.good hs hstep) hrest
    refine ⟨s', ?_⟩
    rw [exec_cons, hstep]
    exact hs'

end Interleaving

end Transition
