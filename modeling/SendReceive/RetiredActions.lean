import SendReceive.Lib.Transition
import SendReceive.PollerRound

/-!
# Actions that have retired

An action of a poller retires when its callback asks to be cancelled, and an action that waits for
input when its descriptor has had the end of file.  `Poller::poll` asks for no events of such an
action from then on, but leaves its descriptor in the array: the system reports errors and hangups
on it as before, and the loop over the results looks at these first.

Two rounds are compared that differ in what is reported on one retired action.

## Main definitions

* `Poller.SameRound` — the same calls, the same result, the same active actions.
* `PollerRun`, `PollerRun.step` — a program that uses a poller.
* `PollerRun.HasCancelled`, `PollerRun.HasEof` — the two ways to retire.

## Main results

* `Poller.sameRound_set_iff` — **two rounds that differ in one entry**.
* `PollerRun.Retired.exec` — actions stay retired.
* `PollerRun.retired_iff` — **when a retired action has no influence**.
-/

namespace SendReceive

namespace Poller

variable {σ : Type}

/-! ### Two rounds -/

/-- What is seen of a round: the positions of the actions that were called, the result, and which
actions are active. -/
structure SameRound (x y : Round σ) : Prop where
  calls : x.1.map Call.position = y.1.map Call.position
  outcome : x.2.map (fun r => (r.1, r.2.1.map Action.active))
    = y.2.map (fun r => (r.1, r.2.1.map Action.active))

theorem SameRound.refl (x : Round σ) : SameRound x x := ⟨rfl, rfl⟩

theorem SameRound.symm {x y : Round σ} (h : SameRound x y) : SameRound y x :=
  ⟨h.calls.symm, h.outcome.symm⟩

theorem sameRound_comm {x y : Round σ} : SameRound x y ↔ SameRound y x :=
  ⟨SameRound.symm, SameRound.symm⟩

/-- The turn before makes no difference. -/
theorem sameRound_after {x y : Round σ} (cs : List Call) (a : Action σ) :
    SameRound (x.after cs a) (y.after cs a) ↔ SameRound x y := by
  obtain ⟨calls, outcome⟩ := x
  obtain ⟨calls', outcome'⟩ := y
  have hcalls : (cs ++ calls).map Call.position = (cs ++ calls').map Call.position ↔
      calls.map Call.position = calls'.map Call.position := by
    simp
  have houtcome :
      (Round.after cs a (calls, outcome)).2.map (fun r => (r.1, r.2.1.map Action.active))
        = (Round.after cs a (calls', outcome')).2.map (fun r => (r.1, r.2.1.map Action.active)) ↔
      outcome.map (fun r => (r.1, r.2.1.map Action.active))
        = outcome'.map (fun r => (r.1, r.2.1.map Action.active)) := by
    cases outcome <;> cases outcome' <;> simp [Round.after, Except.map]
  exact ⟨fun h => ⟨hcalls.mp h.calls, houtcome.mp h.outcome⟩,
    fun h => ⟨hcalls.mpr h.calls, houtcome.mpr h.outcome⟩⟩

/-- The loop comes past the entries: no error is reported on one of them, and no callback that it
calls for one ends the round or the program. -/
def passes : List (Action σ × UInt16) → List UInt16 → σ → Bool
  | [], _, _ => true
  | (a, events) :: rest, revents, s =>
    if reportsError (revents.headD 0) then false
    else if revents.headD 0 &&& events ≠ 0 then
      match a.callback s with
      | .error _ => false
      | .ok (result, s) => result.result ≠ .exit && passes rest revents.tail s
    else passes rest revents.tail s

/-- An error is reported on one of the entries, and no event that was asked for on one before it. -/
def errorFirst : List (Action σ × UInt16) → List UInt16 → Bool
  | [], _ => false
  | (_, events) :: rest, revents =>
    reportsError (revents.headD 0) ||
      (revents.headD 0 &&& events == 0 && errorFirst rest revents.tail)

/-- **The loop ends as with an error at once** when an error comes first. -/
theorem sameRound_exit_iff (polled : List (Action σ × UInt16)) : ∀ {i : ℕ} {revents : List UInt16}
    {s s₀ : σ}, SameRound ([], .ok ({ result := .exit }, polled.map Prod.fst, s₀))
      (dispatchRound i polled revents s) ↔ errorFirst polled revents := by
  induction polled with
  | nil =>
    intro i revents s s₀
    refine iff_of_false (fun h => ?_) (by simp [errorFirst])
    simpa [dispatchRound, Except.map] using h.outcome
  | cons entry rest ih =>
    obtain ⟨a, events⟩ := entry
    intro i revents s s₀
    rw [errorFirst]
    by_cases herror : reportsError (revents.headD 0)
    · rw [dispatchRound_error revents herror, herror]
      exact iff_of_true ⟨rfl, rfl⟩ rfl
    · by_cases hevent : revents.headD 0 &&& events = 0
      · rw [dispatchRound_skip revents herror hevent, hevent]
        simp only [herror, Bool.false_or, BEq.rfl, Bool.true_and]
        exact (sameRound_after [] a).trans ih
      · rw [dispatchRound_call revents herror hevent]
        generalize revents.headD 0 = q at herror hevent
        refine iff_of_false (fun h => ?_) (by simp [herror, hevent])
        -- the callback was called
        have hcalls := h.calls
        cases hcall : a.callback s with
        | error why => simp [hcall] at hcalls
        | ok r =>
          obtain ⟨⟨result, status⟩, s'⟩ := r
          cases result <;> simp [hcall, Round.after] at hcalls

/-- **Two rounds that differ in one entry** for which no event was asked: they are the same when the
entry reports an error in both or in neither, when the loop does not come to the entry, and when an
error comes first after it. -/
theorem sameRound_set_iff (a : Action σ) (rest : List (Action σ × UInt16)) (x : UInt16)
    (before : List (Action σ × UInt16)) : ∀ {i : ℕ} {revents : List UInt16} {s : σ},
      before.length < revents.length →
      (SameRound (dispatchRound i (before ++ (a, 0) :: rest) revents s)
          (dispatchRound i (before ++ (a, 0) :: rest) (revents.set before.length x) s) ↔
        reportsError (revents.getD before.length 0) = reportsError x ∨
          ¬ passes before revents s ∨ errorFirst rest (revents.drop (before.length + 1))) := by
  induction before with
  | nil =>
    intro i revents s hlength
    obtain ⟨q, qs, rfl⟩ := List.exists_cons_of_length_pos hlength
    have herror : ∀ y : UInt16, reportsError y = true → dispatchRound i ((a, 0) :: rest) (y :: qs) s
        = ([], .ok ({ result := .exit }, a :: rest.map Prod.fst, s)) :=
      fun y => dispatchRound_error (y :: qs)
    have hskip : ∀ y : UInt16, reportsError y = false → dispatchRound i ((a, 0) :: rest) (y :: qs) s
        = (dispatchRound (i + 1) rest qs s).after [] a :=
      fun y hy => dispatchRound_skip (y :: qs) (by simp [hy]) UInt16.and_zero
    have hexit : SameRound ([], .ok ({ result := .exit }, a :: rest.map Prod.fst, s))
        ((dispatchRound (i + 1) rest qs s).after [] a) ↔ errorFirst rest qs :=
      (sameRound_after [] a).trans (sameRound_exit_iff rest)
    show SameRound (dispatchRound i ((a, 0) :: rest) (q :: qs) s)
        (dispatchRound i ((a, 0) :: rest) (x :: qs) s) ↔
      reportsError q = reportsError x ∨ ¬ true = true ∨ errorFirst rest qs
    cases hq : reportsError q <;> cases hx : reportsError x
    · rw [hskip q hq, hskip x hx]
      exact iff_of_true (.refl _) (Or.inl rfl)
    · rw [hskip q hq, herror x hx]
      simpa using sameRound_comm.trans hexit
    · rw [herror q hq, hskip x hx]
      simpa using hexit
    · rw [herror q hq, herror x hx]
      exact iff_of_true (.refl _) (Or.inl rfl)
  | cons entry before ih =>
    obtain ⟨b, events⟩ := entry
    intro i revents s hlength
    obtain ⟨q, qs, rfl⟩ := List.exists_cons_of_length_pos (Nat.zero_lt_of_lt hlength)
    have hrest : before.length < qs.length := Nat.lt_of_succ_lt_succ hlength
    -- both loops take the same turn for the entry `b`
    show SameRound (dispatchRound i ((b, events) :: (before ++ (a, 0) :: rest)) (q :: qs) s)
        (dispatchRound i ((b, events) :: (before ++ (a, 0) :: rest))
          (q :: qs.set before.length x) s) ↔
      reportsError (qs.getD before.length 0) = reportsError x ∨
        ¬ passes ((b, events) :: before) (q :: qs) s ∨
        errorFirst rest (qs.drop (before.length + 1))
    by_cases herror : reportsError q
    · rw [dispatchRound_error (q :: qs) herror, dispatchRound_error (q :: _) herror]
      exact iff_of_true (.refl _) (Or.inr (Or.inl (by simp [passes, herror])))
    · by_cases hevent : q &&& events = 0
      · have hpasses : passes ((b, events) :: before) (q :: qs) s = passes before qs s := by
          simp [passes, herror, hevent]
        rw [dispatchRound_skip (q :: qs) herror hevent, dispatchRound_skip (q :: _) herror hevent,
          hpasses]
        exact (sameRound_after [] b).trans (ih hrest)
      · rw [dispatchRound_call (q :: qs) herror hevent, dispatchRound_call (q :: _) herror hevent]
        cases hcall : b.callback s with
        | error why =>
          exact iff_of_true (.refl _) (Or.inr (Or.inl (by simp [passes, herror, hevent, hcall])))
        | ok r =>
          obtain ⟨⟨result, status⟩, s'⟩ := r
          cases result with
          | exit =>
            exact iff_of_true (.refl _) (Or.inr (Or.inl (by simp [passes, herror, hevent, hcall])))
          | cancel | continue_ =>
            have hpasses : passes ((b, events) :: before) (q :: qs) s = passes before qs s' := by
              simp [passes, herror, hevent, hcall]
            rw [hpasses]
            exact (sameRound_after _ _).trans (ih hrest)

/-! ### What is asked for a retired action -/

/-- The callback asked to be cancelled, or the action waits for input and its descriptor has had the
end of file. -/
def Action.Retired (a : Action σ) (s : σ) : Prop :=
  a.active = false ∨ a.direction = .in_ ∧ a.eof s

/-- **No events are asked for a retired action.** -/
theorem requested_of_retired {a : Action σ} {s : σ} (h : a.Retired s) : requested s a = 0 := by
  unfold requested
  rcases h with hactive | ⟨hdirection, heof⟩
  · simp [hactive]
  · rw [if_pos ⟨hdirection, heof⟩]

/-- The actions with the events that are asked for. -/
def polled (actions : List (Action σ)) (s : σ) : List (Action σ × UInt16) :=
  actions.zip (actions.map (requested s))

theorem length_polled (actions : List (Action σ)) (s : σ) :
    (polled actions s).length = actions.length := by
  simp [polled]

theorem getElem?_polled {actions : List (Action σ)} {s : σ} {j : ℕ} {entry : Action σ × UInt16}
    (h : (polled actions s)[j]? = some entry) :
    actions[j]? = some entry.1 ∧ entry.2 = requested s entry.1 := by
  obtain ⟨ha, hevents⟩ := List.getElem?_zip_eq_some.mp h
  rw [List.getElem?_map, ha, Option.map_some, Option.some.injEq] at hevents
  exact ⟨ha, hevents.symm⟩

theorem round_ready {actions : List (Action σ)} {s : σ}
    (h : ¬ (actions.map (requested s)).all (· == 0)) (revents : List UInt16) :
    round actions (.ready revents) s = dispatchRound 0 (polled actions s) revents s := by
  unfold round
  exact if_neg h

/-- A round that does not come to the loop calls nothing, and leaves the actions. -/
theorem round_cases (actions : List (Action σ)) (outcome : SysPoll) (s : σ) :
    ((round actions outcome s).1 = [] ∧
      ∀ r, (round actions outcome s).2 = .ok r → r.2.1 = actions) ∨
    ∃ revents, round actions outcome s = dispatchRound 0 (polled actions s) revents s := by
  by_cases hnone : (actions.map (requested s)).all (· == 0)
  · refine Or.inl ?_
    unfold round
    dsimp only
    rw [if_pos hnone]
    exact ⟨rfl, fun r hr => Except.ok.inj hr ▸ rfl⟩
  · cases outcome with
    | ready revents => exact Or.inr ⟨revents, round_ready hnone revents⟩
    | error | timeout =>
      refine Or.inl ?_
      unfold round
      dsimp only
      rw [if_neg hnone]
      exact ⟨rfl, fun r hr => by cases hr <;> rfl⟩

/-- A callback is called only when some event was asked for. -/
theorem requested_of_mem_calls {actions : List (Action σ)} {outcome : SysPoll} {s : σ} {c : Call}
    (h : c ∈ (round actions outcome s).1) :
    ∃ a, actions[c.position]? = some a ∧ requested s a ≠ 0 := by
  rcases round_cases actions outcome s with ⟨hcalls, -⟩ | ⟨revents, hround⟩
  · rw [hcalls] at h
    cases h
  · rw [hround] at h
    obtain ⟨j, entry, hpos, hentry, hevents⟩ := asked_of_mem_dispatchRound _ h
    obtain ⟨ha, hrequested⟩ := getElem?_polled hentry
    rw [hpos, Nat.zero_add]
    exact ⟨entry.1, ha, hrequested ▸ hevents⟩

/-- **What a round leaves of the actions.** -/
theorem kept_of_round {actions actions' : List (Action σ)} {outcome : SysPoll} {s s' : σ}
    {result : Result} (h : (round actions outcome s).2 = .ok (result, actions', s')) :
    List.Forall₂ Kept actions actions' ∧
      ∀ c ∈ (round actions outcome s).1, ∀ r ∈ c.returned, r.result = .cancel →
        ∃ a', actions'[c.position]? = some a' ∧ a'.active = false := by
  rcases round_cases actions outcome s with ⟨hcalls, hactions⟩ | ⟨revents, hround⟩
  · obtain rfl : actions' = actions := hactions _ h
    rw [hcalls]
    exact ⟨List.forall₂_same.mpr fun b _ => Or.inl rfl, fun c hc => by cases hc⟩
  · rw [hround] at h ⊢
    obtain ⟨hkept, hcancels⟩ := kept_of_dispatchRound _ h
    have hactions : (polled actions s).map Prod.fst = actions := List.map_fst_zip (by simp)
    refine ⟨hactions ▸ hkept, fun c hc r hr hcancel => ?_⟩
    obtain ⟨j, a', hpos, ha', hactive⟩ := hcancels c hc r hr hcancel
    rw [hpos, Nat.zero_add]
    exact ⟨a', ha', hactive⟩

end Poller

/-! ### Programs that use a poller -/

open Poller

/-- A program that uses a poller: the actions that are registered, and the state that their
callbacks look at. -/
structure PollerRun (σ : Type) where
  actions : List (Action σ)
  state : σ

namespace PollerRun

variable {σ : Type}

/-- What happens to such a program. -/
inductive Event (σ : Type) where
  /-- `Poller::add_action`. -/
  | add (action : Action σ)
  /-- The program goes on, up to its next call of the poller. -/
  | work (state : σ)
  /-- `Poller::poll`, with what `::poll` comes to. -/
  | poll (timeoutMs : Int32) (outcome : SysPoll)

/-- No flag for the end of file was cleared: `FileDescriptor` has no member that does it. -/
def eofKept (actions : List (Action σ)) (s s' : σ) : Bool :=
  actions.all fun a => !a.eof s || a.eof s'

/-- One step of the program.  An action that is constructed is active; a call of `Poller::poll` that
does not come back ends the run. -/
def step (r : PollerRun σ) : Event σ → Option (PollerRun σ)
  | .add action => if action.active then some { r with actions := r.actions ++ [action] } else none
  | .work state => if eofKept r.actions r.state state then some { r with state := state } else none
  | .poll timeoutMs outcome =>
    match Poller.poll r.actions timeoutMs (fun _ _ => outcome) r.state with
    | .error _ => none
    | .ok (_, actions, state) =>
      if eofKept r.actions r.state state then some ⟨actions, state⟩ else none

/-- The calls of callbacks in an event. -/
def calls (r : PollerRun σ) : Event σ → List Call
  | .poll _ outcome => (Poller.round r.actions outcome r.state).1
  | _ => []

/-- What each step can do. -/
inductive Effect (r : PollerRun σ) : Event σ → PollerRun σ → Prop
  | add {action : Action σ} (hactive : action.active) :
      Effect r (.add action) { r with actions := r.actions ++ [action] }
  | work {state : σ} (heof : eofKept r.actions r.state state) :
      Effect r (.work state) { r with state := state }
  | poll {timeoutMs : Int32} {outcome : SysPoll} {result : Result} {r' : PollerRun σ}
      (hround : (Poller.round r.actions outcome r.state).2 = .ok (result, r'.actions, r'.state))
      (heof : eofKept r.actions r.state r'.state) : Effect r (.poll timeoutMs outcome) r'

/-- **Every step does what `Effect` says.** -/
theorem step_effect {r r' : PollerRun σ} {e : Event σ} (h : step r e = some r') :
    Effect r e r' := by
  cases e with
  | add action =>
    obtain ⟨hactive, h⟩ := Option.ite_none_right_eq_some.mp h
    obtain rfl := Option.some.inj h
    exact .add hactive
  | work state =>
    obtain ⟨heof, h⟩ := Option.ite_none_right_eq_some.mp h
    obtain rfl := Option.some.inj h
    exact .work heof
  | poll timeoutMs outcome =>
    unfold step at h
    dsimp only at h
    cases hpoll : Poller.poll r.actions timeoutMs (fun _ _ => outcome) r.state with
    | error why =>
      rw [hpoll] at h
      cases h
    | ok result =>
      obtain ⟨result, actions, state⟩ := result
      rw [hpoll] at h
      obtain ⟨heof, h⟩ := Option.ite_none_right_eq_some.mp h
      obtain rfl := Option.some.inj h
      exact .poll ((round_snd _ timeoutMs _ _).trans hpoll) heof

/-- The action at the position `i` has retired. -/
def Retired (i : ℕ) (r : PollerRun σ) : Prop :=
  ∃ a, r.actions[i]? = some a ∧ a.Retired r.state

/-- **A step keeps retired actions.** -/
theorem Retired.step {i : ℕ} {r r' : PollerRun σ} {e : Event σ} (h : Retired i r)
    (heff : Effect r e r') : Retired i r' := by
  obtain ⟨a, ha, hretired⟩ := h
  -- the flag of the action is kept
  have hflag : ∀ {s : σ}, eofKept r.actions r.state s → a.Retired s := by
    intro s heof
    rcases hretired with hactive | ⟨hdirection, hset⟩
    · exact Or.inl hactive
    · have hkept := List.all_eq_true.mp heof a (List.mem_of_getElem? ha)
      simp only [hset, Bool.not_true, Bool.false_or] at hkept
      exact Or.inr ⟨hdirection, hkept⟩
  cases heff with
  | add hactive =>
    obtain ⟨hlt, -⟩ := List.getElem?_eq_some_iff.mp ha
    exact ⟨a, by rw [List.getElem?_append_left hlt]; exact ha, hretired⟩
  | work heof => exact ⟨a, ha, hflag heof⟩
  | poll hround heof =>
    obtain ⟨hlt, hget⟩ := List.getElem?_eq_some_iff.mp ha
    obtain ⟨hkept, -⟩ := kept_of_round hround
    have hlt' : i < r'.actions.length := hkept.length_eq ▸ hlt
    have hi : Kept a r'.actions[i] := hget ▸ hkept.get hlt hlt'
    refine ⟨r'.actions[i], List.getElem?_eq_getElem hlt', ?_⟩
    rcases hi with hsame | hcancelled
    · rw [hsame]
      exact hflag heof
    · rw [hcancelled]
      exact Or.inl rfl

/-- **Actions stay retired.** -/
theorem Retired.exec {i : ℕ} {r r' : PollerRun σ} {es : List (Event σ)} (h : Retired i r)
    (hrun : Transition.exec PollerRun.step r es = some r') : Retired i r' := by
  refine Transition.exec_invariant h ?_ hrun
  intro _ _ _ ih hstep
  exact ih.step (step_effect hstep)

/-- **A retired action is not called.** -/
theorem Retired.not_called {i : ℕ} {r : PollerRun σ} (h : Retired i r) {e : Event σ} {c : Call}
    (hc : c ∈ r.calls e) : c.position ≠ i := by
  rintro rfl
  obtain ⟨a, ha, hretired⟩ := h
  cases e with
  | add action | work state => cases hc
  | poll timeoutMs outcome =>
    obtain ⟨b, hb, hevents⟩ := requested_of_mem_calls hc
    obtain rfl := Option.some.inj (ha.symm.trans hb)
    exact hevents (requested_of_retired hretired)

/-- In the run of the events `es` from `r₀` the callback of the action at the position `i` asked to
be cancelled. -/
def HasCancelled (r₀ : PollerRun σ) (es : List (Event σ)) (i : ℕ) : Prop :=
  ∃ before e after r c result, es = before ++ e :: after ∧
    Transition.exec step r₀ before = some r ∧ c ∈ r.calls e ∧ c.position = i ∧
    c.returned = some result ∧ result.result = .cancel

/-- The action at the position `i` waits for input, and its descriptor has had the end of file. -/
def HasEof (r : PollerRun σ) (i : ℕ) : Prop :=
  ∃ a, r.actions[i]? = some a ∧ a.direction = .in_ ∧ a.eof r.state

variable {r₀ r : PollerRun σ} {es : List (Event σ)} {i : ℕ}

/-- An action that asked to be cancelled has retired. -/
theorem HasCancelled.retired (h : HasCancelled r₀ es i)
    (hrun : Transition.exec step r₀ es = some r) : Retired i r := by
  obtain ⟨before, e, after, m, c, result, rfl, hbefore, hc, rfl, hreturned, hcancel⟩ := h
  obtain ⟨m', hm', hrest⟩ := Transition.exec_append_eq_some.mp hrun
  obtain rfl := Option.some.inj (hbefore.symm.trans hm')
  obtain ⟨m', hstep, hafter⟩ := Option.bind_eq_some_iff.mp hrest
  have hm' : Retired c.position m' := by
    cases step_effect hstep with
    | add hactive | work heof => cases hc
    | poll hround heof =>
      obtain ⟨a', ha', hactive⟩ := (kept_of_round hround).2 c hc result hreturned hcancel
      exact ⟨a', ha', Or.inl hactive⟩
  exact hm'.exec hafter

/-- **Two results of `::poll` that differ in the entry of a retired action** lead to the same round
when the loop does not see an error in one of them only, or would end with an error all the same. -/
theorem Retired.sameRound_iff (h : Retired i r) {revents : List UInt16}
    (hlength : revents.length = r.actions.length) (x : UInt16) :
    SameRound (Poller.round r.actions (.ready revents) r.state)
        (Poller.round r.actions (.ready (revents.set i x)) r.state) ↔
      (∀ a ∈ r.actions, requested r.state a = 0) ∨
      reportsError (revents.getD i 0) = reportsError x ∨
      ¬ passes ((polled r.actions r.state).take i) revents r.state ∨
      errorFirst ((polled r.actions r.state).drop (i + 1)) (revents.drop (i + 1)) := by
  obtain ⟨a, ha, hretired⟩ := h
  obtain ⟨hlt, hget⟩ := List.getElem?_eq_some_iff.mp ha
  have hall : (r.actions.map (requested r.state)).all (· == 0) ↔
      ∀ a ∈ r.actions, requested r.state a = 0 := by
    simp
  rw [← hall]
  by_cases hnone : (r.actions.map (requested r.state)).all (· == 0)
  · refine iff_of_true ?_ (Or.inl hnone)
    unfold Poller.round
    dsimp only
    rw [if_pos hnone, if_pos hnone]
    exact .refl _
  · have hi : i < (polled r.actions r.state).length := (length_polled _ _).symm ▸ hlt
    have hentry : (polled r.actions r.state)[i] = (a, 0) := by
      rw [← requested_of_retired hretired, ← hget]
      simp [polled]
    have hsplit : polled r.actions r.state = (polled r.actions r.state).take i ++
        (a, 0) :: (polled r.actions r.state).drop (i + 1) := by
      rw [← hentry, ← List.drop_eq_getElem_cons hi, List.take_append_drop]
    have hbefore : ((polled r.actions r.state).take i).length = i :=
      List.length_take_of_le hi.le
    have hbound : ((polled r.actions r.state).take i).length < revents.length := by omega
    have htwo := sameRound_set_iff a ((polled r.actions r.state).drop (i + 1)) x
      ((polled r.actions r.state).take i) (i := 0) (s := r.state) hbound
    rw [← hsplit, hbefore] at htwo
    rw [round_ready hnone, round_ready hnone, htwo]
    exact (or_iff_right hnone).symm

/-- **When a retired action has no influence**: in every run, on a round after the action has
retired.  It has one when an error is reported on its descriptor in one of two results, the loop
comes to it, and the rest of the loop would not end with an error at once.  Its callback is not called
again in any case. -/
theorem retired_iff (hrun : Transition.exec step r₀ es = some r)
    (h : HasCancelled r₀ es i ∨ HasEof r i) :
    (∀ revents x, revents.length = r.actions.length →
      (SameRound (Poller.round r.actions (.ready revents) r.state)
          (Poller.round r.actions (.ready (revents.set i x)) r.state) ↔
        (∀ a ∈ r.actions, requested r.state a = 0) ∨
        reportsError (revents.getD i 0) = reportsError x ∨
        ¬ passes ((polled r.actions r.state).take i) revents r.state ∨
        errorFirst ((polled r.actions r.state).drop (i + 1)) (revents.drop (i + 1)))) ∧
    ∀ es' r', Transition.exec step r es' = some r' → ∀ e, ∀ c ∈ r'.calls e, c.position ≠ i := by
  have hretired : Retired i r := by
    rcases h with hcancelled | ⟨a, ha, hdirection, heof⟩
    · exact hcancelled.retired hrun
    · exact ⟨a, ha, Or.inr ⟨hdirection, heof⟩⟩
  refine ⟨fun revents x hlength => hretired.sameRound_iff hlength x, ?_⟩
  intro es' r' hrun' e c hc
  exact (hretired.exec hrun').not_called hc

/-! ### A hangup -/

/-- An action that waits for input on a descriptor without end of file, and answers in one way. -/
def answering (answer : ActionResultType) : Action Unit where
  eof := fun _ => false
  direction := .in_
  callback := fun s => .ok ({ result := answer }, s)

/-- A result of `::poll` is admissible: there is an entry for each action, with events that were
asked for, or errors, which may be reported without being asked for. -/
def Admissible (r : PollerRun σ) (revents : List UInt16) : Prop :=
  revents.length = r.actions.length ∧
    (revents.zip (r.actions.map (requested r.state))).all fun entry =>
      entry.1 &&& (entry.2 ||| pollErr ||| pollHup ||| pollNval) == entry.1

/-- Two actions, of which the first asks to be cancelled. -/
def cancelling : PollerRun Unit := ⟨[answering .cancel, answering .continue_], ()⟩

/-- The two actions when the first has been called. -/
def cancelled : PollerRun Unit :=
  ⟨[{ answering .cancel with active := false }, answering .continue_], ()⟩

theorem exec_cancelling :
    Transition.exec step cancelling [.poll 1000 (.ready [pollIn, 0])] = some cancelled := rfl

theorem hasCancelled_cancelling :
    HasCancelled cancelling [.poll 1000 (.ready [pollIn, 0])] 0 :=
  ⟨[], _, [], cancelling, ⟨0, some { result := .cancel }⟩, { result := .cancel }, rfl, rfl,
    List.mem_singleton.mpr rfl, rfl, rfl, rfl⟩

/-- An error and a hangup on the descriptor of the cancelled action make no difference. -/
theorem retired_iff_of_error :
    SameRound (Poller.round cancelled.actions (.ready [pollErr, pollIn]) ())
        (Poller.round cancelled.actions (.ready [pollHup, pollIn]) ()) ∧
      ∀ es' r', Transition.exec step cancelled es' = some r' →
        ∀ e, ∀ c ∈ r'.calls e, c.position ≠ 0 := by
  obtain ⟨hround, hcalls⟩ := retired_iff exec_cancelling (Or.inl hasCancelled_cancelling)
  exact ⟨(hround [pollErr, pollIn] pollHup rfl).mpr (Or.inr (Or.inl (by decide))), hcalls⟩

/-- A hangup on the descriptor of the cancelled action ends the round before the callback of the
other action, for which input has come. -/
theorem hangup_of_cancelled :
    Admissible cancelled [0, pollIn] ∧ Admissible cancelled [pollHup, pollIn] ∧
      HasCancelled cancelling [.poll 1000 (.ready [pollIn, 0])] 0 ∧
      Transition.exec step cancelling [.poll 1000 (.ready [pollIn, 0])] = some cancelled ∧
      ¬ SameRound (Poller.round cancelled.actions (.ready [0, pollIn]) ())
        (Poller.round cancelled.actions (.ready [pollHup, pollIn]) ()) := by
  refine ⟨?_, ?_, hasCancelled_cancelling, exec_cancelling, fun h => ?_⟩
  · exact ⟨rfl, by decide⟩
  · exact ⟨rfl, by decide⟩
  · have hcalls := h.calls
    revert hcalls
    decide

end PollerRun

end SendReceive
