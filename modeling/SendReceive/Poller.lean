import SendReceive.Runtime

/-!
# The poller

The poller waits on a list of file descriptors, each with an action, and runs the actions
whose event came.  What the system call `::poll` finds is a parameter: it is an input
of the program.

## Main definitions

* `Poller.Action`, `Poller.Result` — actions, and what a round of polling comes to.
* `Poller.poll` — one round.

## Main results

* `Poller.poll_single` — what one round over a single action comes to.
-/

namespace SendReceive

/-! ### Events -/

/-- `POLLIN`. -/
def pollIn : UInt16 := 0x001
/-- `POLLOUT`. -/
def pollOut : UInt16 := 0x004
/-- `POLLERR`. -/
def pollErr : UInt16 := 0x008
/-- `POLLHUP`. -/
def pollHup : UInt16 := 0x010
/-- `POLLNVAL`. -/
def pollNval : UInt16 := 0x020

/-- `revents & (POLLERR | POLLHUP | POLLNVAL)`: an error is reported on the descriptor. -/
def reportsError (revents : UInt16) : Bool := revents &&& (pollErr ||| pollHup ||| pollNval) != 0

/-- `EXIT_SUCCESS`. -/
def exitSuccess : UInt32 := 0

/-- What the system call `::poll` comes to. -/
inductive SysPoll where
  /-- It fails. -/
  | error
  /-- The time is up. -/
  | timeout
  /-- Events came: the `revents` of every descriptor. -/
  | ready (revents : List UInt16)
  deriving DecidableEq, Repr

namespace Poller

/-- `Poller::Action::Result::Type`. -/
inductive ActionResultType where
  | continue_
  | exit
  | cancel
  deriving DecidableEq, Repr

/-- `Poller::Action::Result`. -/
structure ActionResult where
  result : ActionResultType := .continue_
  exitStatus : UInt32 := exitSuccess
  deriving DecidableEq, Repr

/-- `Poller::Action::PollDirection`. -/
inductive PollDirection where
  | in_
  | out
  deriving DecidableEq, Repr

/-- The events a direction asks for. -/
def PollDirection.events : PollDirection → UInt16
  | .in_ => pollIn
  | .out => pollOut

/-- `Poller::Action`.  The callback, the interest and the descriptor's end-of-file flag look at
a state `σ` of the program. -/
structure Action (σ : Type) where
  eof : σ → Bool
  direction : PollDirection
  callback : σ → Except Stop (ActionResult × σ)
  whenInterested : σ → Bool := fun _ => true
  active : Bool := true

/-- `Poller::Result::Type`. -/
inductive ResultType where
  | success
  | timeout
  | exit
  deriving DecidableEq, Repr

/-- `Poller::Result`.  A bare `ResultType` is converted with the default status. -/
structure Result where
  result : ResultType
  exitStatus : UInt32 := exitSuccess
  deriving DecidableEq, Repr

variable {σ : Type}

/-- The events asked for an action: none when it is cancelled or not interested, or waits for
input on a descriptor that has had its end of file. -/
def requested (s : σ) (a : Action σ) : UInt16 :=
  if a.direction = .in_ ∧ a.eof s then 0
  else if a.active ∧ a.whenInterested s then a.direction.events
  else 0

/-- The loop over the results of `::poll`: each action with the events asked for, and the
events that came. -/
def dispatch : List (Action σ × UInt16) → List UInt16 → σ →
    Except Stop (Result × List (Action σ) × σ)
  | [], _, s => .ok ({ result := .success }, [], s)
  | (a, events) :: rest, revents, s =>
    if reportsError (revents.headD 0) then
      .ok ({ result := .exit }, a :: rest.map Prod.fst, s)
    else if revents.headD 0 &&& events ≠ 0 then do
      -- the callback is called only if the event we asked for came
      let (result, s) ← a.callback s
      match result.result with
      | .exit =>
        return ({ result := .exit, exitStatus := result.exitStatus }, a :: rest.map Prod.fst, s)
      | .cancel =>
        let (r, as, s) ← dispatch rest revents.tail s
        return (r, { a with active := false } :: as, s)
      | .continue_ =>
        let (r, as, s) ← dispatch rest revents.tail s
        return (r, a :: as, s)
    else do
      let (r, as, s) ← dispatch rest revents.tail s
      return (r, a :: as, s)

/-- `Poller::poll`, where `sysPoll` is what `::poll` comes to for the events asked for and the
timeout. -/
def poll (actions : List (Action σ)) (timeoutMs : Int32)
    (sysPoll : List UInt16 → Int32 → SysPoll) (s : σ) :
    Except Stop (Result × List (Action σ) × σ) :=
  let events := actions.map (requested s)
  -- quit if nothing is asked for
  if events.all (· == 0) then .ok ({ result := .exit }, actions, s)
  else
    match sysPoll events timeoutMs with
    | .error => .error (.throw (.exception "poll"))
    | .timeout => .ok ({ result := .timeout }, actions, s)
    | .ready revents => dispatch (actions.zip events) revents s

/-! ### A poller with one action -/

/-- The callback of an action that waits for input is called: input came and no error. -/
def readable (revents : UInt16) : Bool := !reportsError revents && revents &&& pollIn != 0

theorem readable_not_error {revents : UInt16} (h : readable revents) :
    ¬ reportsError revents := by
  intro herr
  simp [readable, herr] at h

/-- **One round over a single action that waits for input** and always continues: it reports
the end of the time, an error on the descriptor, or success. -/
theorem poll_single {a : Action σ} {s : σ} (hdir : a.direction = .in_) (hactive : a.active)
    (heof : a.eof s = false) (hinterest : a.whenInterested s) {run : σ → Except Stop σ}
    (hcallback : a.callback = fun s => (run s).map fun s' => ({}, s')) (timeoutMs : Int32)
    (outcome : SysPoll) :
    poll [a] timeoutMs (fun _ _ => outcome) s =
      match outcome with
      | .error => .error (.throw (.exception "poll"))
      | .timeout => .ok ({ result := .timeout }, [a], s)
      | .ready revents =>
        if reportsError (revents.headD 0) then .ok ({ result := .exit }, [a], s)
        else if readable (revents.headD 0) then
          (run s).map fun s' => ({ result := .success }, [a], s')
        else .ok ({ result := .success }, [a], s) := by
  have hreq : requested s a = pollIn := by
    rw [requested, if_neg (by simp [heof]), if_pos ⟨hactive, hinterest⟩, hdir]
    rfl
  have hask : ([a].map (requested s)).all (· == 0) = false := by
    rw [List.map_singleton, hreq]
    rfl
  rw [poll, hask, if_neg Bool.false_ne_true]
  cases outcome with
  | error => rfl
  | timeout => rfl
  | ready revents =>
    show dispatch [(a, requested s a)] revents s = _
    dsimp only
    rw [dispatch, hreq]
    generalize revents.headD 0 = r
    by_cases herr : reportsError r
    · rw [if_pos herr]
      simp [herr]
    · rw [if_neg herr]
      by_cases hin : r &&& pollIn = 0
      · simp [herr, hin, readable, dispatch]
      · simp only [herr, readable, hcallback]
        cases run s <;> simp [dispatch, hin, Except.map]

end Poller

end SendReceive
