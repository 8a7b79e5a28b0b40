import SendReceive.Poller
import Mathlib.Data.List.Forall2

/-!
# A round of the poller

A round of `Poller::poll` is followed with the calls of callbacks that it makes.  `Poller.poll` has
no trace of them when a callback does not come back.

## Main definitions

* `Poller.Call`, `Poller.Round` — calls, and what a round comes to after them.
* `Poller.round` — a round with its calls.

## Main results

* `Poller.round_snd` — **a round with its calls is a round**.
* `Poller.asked_of_mem_dispatchRound` — only actions some event was asked for are called.
* `Poller.kept_of_dispatchRound` — what a round leaves of the actions.
-/

namespace SendReceive

namespace Poller

/-- A call of the callback of an action: the position of the action, and what the callback returned
if it came back. -/
structure Call where
  position : ℕ
  returned : Option ActionResult
  deriving DecidableEq, Repr

variable {σ : Type}

/-- The calls of a round and what it comes to. -/
abbrev Round (σ : Type) := List Call × Except Stop (Result × List (Action σ) × σ)

/-- What a round comes to with the entry of the action `a` in front, after the calls `cs`. -/
def Round.after (cs : List Call) (a : Action σ) (x : Round σ) : Round σ :=
  (cs ++ x.1, x.2.map fun r => (r.1, a :: r.2.1, r.2.2))

/-- The loop over the results of `::poll` with the calls it makes.  The first action has the
position `i`. -/
def dispatchRound : ℕ → List (Action σ × UInt16) → List UInt16 → σ → Round σ
  | _, [], _, s => ([], .ok ({ result := .success }, [], s))
  | i, (a, events) :: rest, revents, s =>
    if reportsError (revents.headD 0) then
      ([], .ok ({ result := .exit }, a :: rest.map Prod.fst, s))
    else if revents.headD 0 &&& events ≠ 0 then
      match a.callback s with
      | .error why => ([⟨i, none⟩], .error why)
      | .ok (result, s) =>
        match result.result with
        | .exit => ([⟨i, some result⟩],
            .ok ({ result := .exit, exitStatus := result.exitStatus }, a :: rest.map Prod.fst, s))
        | .cancel =>
          (dispatchRound (i + 1) rest revents.tail s).after [⟨i, some result⟩]
            { a with active := false }
        | .continue_ =>
          (dispatchRound (i + 1) rest revents.tail s).after [⟨i, some result⟩] a
    else (dispatchRound (i + 1) rest revents.tail s).after [] a

/-- A round of the poller with the calls it makes, where `outcome` is what `::poll` comes to. -/
def round (actions : List (Action σ)) (outcome : SysPoll) (s : σ) : Round σ :=
  let events := actions.map (requested s)
  if events.all (· == 0) then ([], .ok ({ result := .exit }, actions, s))
  else
    match outcome with
    | .error => ([], .error (.throw (.exception "poll")))
    | .timeout => ([], .ok ({ result := .timeout }, actions, s))
    | .ready revents => dispatchRound 0 (actions.zip events) revents s

section Equations

variable {i : ℕ} {a : Action σ} {events : UInt16} {rest : List (Action σ × UInt16)} {s : σ}

/-- An error ends the loop. -/
theorem dispatchRound_error (revents : List UInt16) (herror : reportsError (revents.headD 0)) :
    dispatchRound i ((a, events) :: rest) revents s
      = ([], .ok ({ result := .exit }, a :: rest.map Prod.fst, s)) := by
  rw [dispatchRound, if_pos herror]

/-- The callback is called when an event came that was asked for. -/
theorem dispatchRound_call (revents : List UInt16) (herror : ¬ reportsError (revents.headD 0))
    (hevent : revents.headD 0 &&& events ≠ 0) :
    dispatchRound i ((a, events) :: rest) revents s =
      match a.callback s with
      | .error why => ([⟨i, none⟩], .error why)
      | .ok (result, s) =>
        match result.result with
        | .exit => ([⟨i, some result⟩],
            .ok ({ result := .exit, exitStatus := result.exitStatus }, a :: rest.map Prod.fst, s))
        | .cancel =>
          (dispatchRound (i + 1) rest revents.tail s).after [⟨i, some result⟩]
            { a with active := false }
        | .continue_ =>
          (dispatchRound (i + 1) rest revents.tail s).after [⟨i, some result⟩] a := by
  rw [dispatchRound, if_neg herror, if_pos hevent]

/-- It is passed over otherwise. -/
theorem dispatchRound_skip (revents : List UInt16) (herror : ¬ reportsError (revents.headD 0))
    (hevent : revents.headD 0 &&& events = 0) :
    dispatchRound i ((a, events) :: rest) revents s
      = (dispatchRound (i + 1) rest revents.tail s).after [] a := by
  rw [dispatchRound, if_neg herror, if_neg (not_not.mpr hevent)]

end Equations

theorem dispatchRound_snd (polled : List (Action σ × UInt16)) : ∀ (i : ℕ) (revents : List UInt16)
    (s : σ), (dispatchRound i polled revents s).2 = dispatch polled revents s := by
  induction polled with
  | nil => intro i revents s; rfl
  | cons entry rest ih =>
    obtain ⟨a, events⟩ := entry
    intro i revents s
    rw [dispatch]
    by_cases herror : reportsError (revents.headD 0)
    · rw [dispatchRound_error revents herror, if_pos herror]
    · rw [if_neg herror]
      by_cases hevent : revents.headD 0 &&& events = 0
      · rw [dispatchRound_skip revents herror hevent, if_neg (not_not.mpr hevent)]
        simp only [Round.after, ih]
        cases dispatch rest revents.tail s <;> rfl
      · rw [dispatchRound_call revents herror hevent, if_pos hevent]
        cases a.callback s with
        | error why => rfl
        | ok r =>
          obtain ⟨⟨result, status⟩, s⟩ := r
          rw [ok_bind]
          cases result with
          | exit => rfl
          | cancel | continue_ =>
            simp only [Round.after, ih]
            cases dispatch rest revents.tail s <;> rfl

/-- **A round with its calls is a round** of the poller. -/
theorem round_snd (actions : List (Action σ)) (timeoutMs : Int32) (outcome : SysPoll) (s : σ) :
    (round actions outcome s).2 = poll actions timeoutMs (fun _ _ => outcome) s := by
  unfold round poll
  dsimp only
  split
  · rfl
  · cases outcome with
    | error | timeout => rfl
    | ready revents => exact dispatchRound_snd _ 0 revents s

/-! ### What a turn of the loop does -/

theorem Round.after_eq_ok {x : Round σ} {cs : List Call} {a : Action σ} {result : Result}
    {as : List (Action σ)} {s : σ} (h : (x.after cs a).2 = .ok (result, as, s)) :
    ∃ as', x.2 = .ok (result, as', s) ∧ as = a :: as' := by
  obtain ⟨calls, outcome⟩ := x
  cases outcome with
  | error why => cases h
  | ok r =>
    obtain ⟨result', as', s'⟩ := r
    obtain ⟨rfl, rfl, rfl⟩ : result' = result ∧ a :: as' = as ∧ s' = s := by
      simpa [Round.after, Except.map] using h
    exact ⟨as', rfl, rfl⟩

/-- What a turn of the loop does, for an action with the events asked for. -/
inductive Turn (i : ℕ) (a : Action σ) (events : UInt16) (rest : List (Action σ × UInt16))
    (revents : List UInt16) (s : σ) : Round σ → Prop
  | error (herror : reportsError (revents.headD 0)) :
      Turn i a events rest revents s ([], .ok ({ result := .exit }, a :: rest.map Prod.fst, s))
  | dies {why : Stop} (hevent : revents.headD 0 &&& events ≠ 0)
      (hcall : a.callback s = .error why) :
      Turn i a events rest revents s ([⟨i, none⟩], .error why)
  | exits {result : ActionResult} {s' : σ} (hevent : revents.headD 0 &&& events ≠ 0)
      (hcall : a.callback s = .ok (result, s')) (hexit : result.result = .exit) :
      Turn i a events rest revents s ([⟨i, some result⟩],
        .ok ({ result := .exit, exitStatus := result.exitStatus }, a :: rest.map Prod.fst, s'))
  | cancels {result : ActionResult} {s' : σ} (hevent : revents.headD 0 &&& events ≠ 0)
      (hcall : a.callback s = .ok (result, s')) (hcancel : result.result = .cancel) :
      Turn i a events rest revents s ((dispatchRound (i + 1) rest revents.tail s').after
        [⟨i, some result⟩] { a with active := false })
  | continues {result : ActionResult} {s' : σ} (hevent : revents.headD 0 &&& events ≠ 0)
      (hcall : a.callback s = .ok (result, s')) (hcontinue : result.result = .continue_) :
      Turn i a events rest revents s
        ((dispatchRound (i + 1) rest revents.tail s').after [⟨i, some result⟩] a)
  | skips : Turn i a events rest revents s ((dispatchRound (i + 1) rest revents.tail s).after [] a)

/-- **Every turn of the loop does what `Turn` says.** -/
theorem dispatchRound_turn (i : ℕ) (a : Action σ) (events : UInt16)
    (rest : List (Action σ × UInt16)) (revents : List UInt16) (s : σ) :
    Turn i a events rest revents s (dispatchRound i ((a, events) :: rest) revents s) := by
  by_cases herror : reportsError (revents.headD 0)
  · rw [dispatchRound_error revents herror]
    exact .error herror
  · by_cases hevent : revents.headD 0 &&& events = 0
    · rw [dispatchRound_skip revents herror hevent]
      exact .skips
    · rw [dispatchRound_call revents herror hevent]
      cases hcall : a.callback s with
      | error why => exact .dies hevent hcall
      | ok r =>
        obtain ⟨⟨result, status⟩, s'⟩ := r
        cases result with
        | exit => exact .exits hevent hcall rfl
        | cancel => exact .cancels hevent hcall rfl
        | continue_ => exact .continues hevent hcall rfl

/-- A call of the loop is that of an action some event was asked for. -/
theorem asked_of_mem_dispatchRound {c : Call} (polled : List (Action σ × UInt16)) :
    ∀ {i : ℕ} {revents : List UInt16} {s : σ}, c ∈ (dispatchRound i polled revents s).1 →
      ∃ j entry, c.position = i + j ∧ polled[j]? = some entry ∧ entry.2 ≠ 0 := by
  induction polled with
  | nil =>
    intro i revents s h
    cases h
  | cons entry rest ih =>
    obtain ⟨a, events⟩ := entry
    intro i revents s h
    -- an event that came and was asked for is not none
    have hne : revents.headD 0 &&& events ≠ 0 → events ≠ 0 := by
      rintro hevent rfl
      exact hevent UInt16.and_zero
    have hhead : c.position = i → events ≠ 0 → ∃ j entry, c.position = i + j ∧
        ((a, events) :: rest)[j]? = some entry ∧ entry.2 ≠ 0 :=
      fun hpos hevents => ⟨0, (a, events), hpos, rfl, hevents⟩
    have hrest : ∀ {s' : σ}, c ∈ (dispatchRound (i + 1) rest revents.tail s').1 →
        ∃ j entry, c.position = i + j ∧ ((a, events) :: rest)[j]? = some entry ∧ entry.2 ≠ 0 := by
      intro s' hc
      obtain ⟨j, entry, hpos, hentry, hevents⟩ := ih hc
      exact ⟨j + 1, entry, by omega, by simpa using hentry, hevents⟩
    have hturn := dispatchRound_turn i a events rest revents s
    generalize dispatchRound i ((a, events) :: rest) revents s = x at h hturn
    cases hturn with
    | error herror => cases h
    | dies hevent hcall | exits hevent hcall hexit =>
      obtain rfl := List.mem_singleton.mp h
      exact hhead rfl (hne hevent)
    | cancels hevent hcall hresult | continues hevent hcall hresult =>
      rcases List.mem_cons.mp h with rfl | h
      · exact hhead rfl (hne hevent)
      · exact hrest h
    | skips => exact hrest h

/-- The action after a round is as before, or cancelled. -/
def Kept (a a' : Action σ) : Prop := a' = a ∨ a' = { a with active := false }

/-- **What a loop leaves of the actions**: they are kept, and those that asked to be cancelled are
cancelled. -/
theorem kept_of_dispatchRound (polled : List (Action σ × UInt16)) : ∀ {i : ℕ}
    {revents : List UInt16} {s s' : σ} {result : Result} {as : List (Action σ)},
    (dispatchRound i polled revents s).2 = .ok (result, as, s') →
      List.Forall₂ Kept (polled.map Prod.fst) as ∧
      ∀ c ∈ (dispatchRound i polled revents s).1, ∀ r ∈ c.returned, r.result = .cancel →
        ∃ j a', c.position = i + j ∧ as[j]? = some a' ∧ a'.active = false := by
  induction polled with
  | nil =>
    intro i revents s s' result as h
    obtain ⟨-, rfl, -⟩ : _ ∧ [] = as ∧ _ := by simpa [dispatchRound] using h
    exact ⟨.nil, fun c hc => by cases hc⟩
  | cons entry rest ih =>
    obtain ⟨a, events⟩ := entry
    intro i revents s s' result as h
    -- the rest of the loop, after this entry became `a'` and the calls `cs` were made
    have hrest : ∀ {s₀ : σ} {a' : Action σ} {cs : List Call}, Kept a a' →
        (∀ c ∈ cs, ∀ r ∈ c.returned, r.result = .cancel → c.position = i ∧ a'.active = false) →
        ((dispatchRound (i + 1) rest revents.tail s₀).after cs a').2 = .ok (result, as, s') →
          List.Forall₂ Kept (a :: rest.map Prod.fst) as ∧
          ∀ c ∈ ((dispatchRound (i + 1) rest revents.tail s₀).after cs a').1, ∀ r ∈ c.returned,
            r.result = .cancel →
              ∃ j a', c.position = i + j ∧ as[j]? = some a' ∧ a'.active = false := by
      intro s₀ a' cs hkept hcs hafter
      obtain ⟨as', hrest, rfl⟩ := Round.after_eq_ok hafter
      obtain ⟨hall, hcancels⟩ := ih hrest
      refine ⟨.cons hkept hall, fun c hc r hr hcancel => ?_⟩
      rcases List.mem_append.mp hc with hc | hc
      · obtain ⟨hpos, hactive⟩ := hcs c hc r hr hcancel
        exact ⟨0, a', hpos, rfl, hactive⟩
      · obtain ⟨j, b, hpos, hb, hactive⟩ := hcancels c hc r hr hcancel
        exact ⟨j + 1, b, by omega, by simpa using hb, hactive⟩
    have hsame : List.Forall₂ Kept (a :: rest.map Prod.fst) (a :: rest.map Prod.fst) :=
      List.forall₂_same.mpr fun b _ => Or.inl rfl
    have hturn := dispatchRound_turn i a events rest revents s
    generalize dispatchRound i ((a, events) :: rest) revents s = x at h hturn
    cases hturn with
    | error herror =>
      obtain ⟨-, rfl, -⟩ : _ ∧ a :: rest.map Prod.fst = as ∧ _ := by simpa using h
      exact ⟨hsame, fun c hc => by cases hc⟩
    | dies hevent hcall => cases h
    | exits hevent hcall hexit =>
      obtain ⟨-, rfl, -⟩ : _ ∧ a :: rest.map Prod.fst = as ∧ _ := by simpa using h
      refine ⟨hsame, fun c hc r hr hcancel => ?_⟩
      obtain rfl := List.mem_singleton.mp hc
      obtain rfl := Option.some.inj hr
      cases hexit.symm.trans hcancel
    | cancels hevent hcall hresult =>
      refine hrest (Or.inr rfl) (fun c hc r hr _ => ?_) h
      obtain rfl := List.mem_singleton.mp hc
      exact ⟨rfl, rfl⟩
    | continues hevent hcall hresult =>
      refine hrest (Or.inl rfl) (fun c hc r hr hcancel => ?_) h
      obtain rfl := List.mem_singleton.mp hc
      obtain rfl := Option.some.inj hr
      cases hresult.symm.trans hcancel
    | skips => exact hrest (Or.inl rfl) (fun c hc => by cases hc) h

end Poller

end SendReceive
