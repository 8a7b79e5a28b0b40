import SendReceive.ClientRun

/-!
# How runs of the client end and go on

A run comes back with a status: the one of the poller, when that reported an error on the
descriptor, and `EXIT_SUCCESS` otherwise.  The poller gives no status of its own, so that its
default is returned, and an aborted transfer looks like one that was completed.

After a timeout the window is all that decides whether the client sends again.  A rule whose
window is zero stops it for good; the rules of the optimiser that add a packet never do.

## Main results

* `ClientRun.honest_status_iff` — **the status is right in the runs without an error on the
  descriptor only**.
* `ClientRun.timeout_resumes` — **when a timeout lets the client send again**.
-/

namespace SendReceive

namespace ClientRun

open Transition (exec)

/-! ### The status of a run -/

/-- `::poll` reports an error on the descriptor of the socket. -/
def Event.reportsError : Event → Bool
  | .poll (.ready revents) _ _ => SendReceive.reportsError (revents.headD 0)
  | _ => false

/-- The status of a run says whether the transfer was completed: it is `EXIT_SUCCESS` only when
all packets were sent, and not after an error on the descriptor. -/
def HonestStatus (numTotalPackets : UInt64) (es : List Event) (r : ClientRun) : Prop :=
  ∀ v, r.pc = .returned v →
    (v = exitSuccess → r.client.nextSeqnum = numTotalPackets) ∧
    ((∃ e ∈ es, e.reportsError) → v ≠ exitSuccess)

section Status

variable {n : UInt64}

/-- An error on the descriptor ends a run, and whatever ends a run makes it return
`EXIT_SUCCESS`. -/
structure Ended (n : UInt64) (es : List Event) (r : ClientRun) : Prop where
  inv : Inv n r
  status : ∀ v, r.pc = .returned v → v = exitSuccess ∧
    (r.client.nextSeqnum = n ∨ ∃ e ∈ es, e.reportsError)
  ended : (∃ e ∈ es, e.reportsError) → ∃ v, r.pc = .returned v

theorem Ended.start (n : UInt64) (addr : Address) (sock : Socket) (whiskers : WhiskerTree)
    (track : Bool) : Ended n [] (start addr sock whiskers track) := by
  refine ⟨.start n addr sock whiskers track, ?_, ?_⟩
  · intro v hv
    rcases start_cases addr sock whiskers track with ⟨why, hstart⟩ | ⟨c, -, hstart⟩
    · rw [hstart] at hv
      cases hv
    · rw [hstart] at hv
      cases hv
  · rintro ⟨e, he, -⟩
    cases he

/-- A step that neither returns nor reports an error. -/
theorem Ended.step_of_not_returned {es : List Event} {r r' : ClientRun} {e : Event}
    (h : Ended n es r) (hinv : Inv n r') (hpc : ∀ v, r.pc ≠ .returned v)
    (hpc' : ∀ v, r'.pc ≠ .returned v) (he : ¬ e.reportsError) : Ended n (es ++ [e]) r' := by
  refine ⟨hinv, fun v hv => absurd hv (hpc' v), ?_⟩
  rintro ⟨e', he', herr⟩
  rcases List.mem_append.mp he' with hes | hlast
  · obtain ⟨v, hv⟩ := h.ended ⟨e', hes, herr⟩
    exact absurd hv (hpc v)
  · rw [List.mem_singleton.mp hlast] at herr
    exact absurd herr he

variable [Platform]

theorem Ended.step {es : List Event} {r r' : ClientRun} {e : Event} (h : Ended n es r)
    (heff : Effect n r e r') : Ended n (es ++ [e]) r' := by
  have hinv : Inv n r' := h.inv.step heff
  have hrunning : ∀ v, r.pc ≠ .returned v := heff.not_returned
  cases heff with
  | finish hpc hnext =>
    -- the guard of the outer loop and the bound of the invariant leave one value
    have hall : r.client.nextSeqnum = n := by
      have hle := h.inv.next_le
      rw [UInt64.lt_iff_toNat_lt] at hnext
      exact UInt64.toNat_inj.mp (by omega)
    refine ⟨hinv, ?_, fun _ => ⟨_, rfl⟩⟩
    intro v hv
    exact ⟨(Pc.returned.inj hv).symm, Or.inl hall⟩
  | @pollError revents incoming hpc herror =>
    -- the poller's result has the default status
    have hmem : Event.poll (.ready revents) incoming []
        ∈ es ++ [.poll (.ready revents) incoming []] :=
      List.mem_append_right _ List.mem_cons_self
    refine ⟨hinv, ?_, fun _ => ⟨_, rfl⟩⟩
    intro v hv
    exact ⟨(Pc.returned.inj hv).symm, Or.inr ⟨_, hmem, herror⟩⟩
  | idle hpc herror hread => exact h.step_of_not_returned hinv hrunning (by simp) herror
  | receive hpc hread hp hreceived =>
    exact h.step_of_not_returned hinv hrunning (by simp) (Poller.readable_not_error hread)
  | dies hpc hread hfails =>
    exact h.step_of_not_returned hinv hrunning (by simp) (Poller.readable_not_error hread)
  | _ => exact h.step_of_not_returned hinv hrunning (by simp [*]) (by simp [Event.reportsError])

variable {addr : Address} {sock : Socket} {whiskers : WhiskerTree} {track : Bool}

theorem Ended.exec {es : List Event} {r : ClientRun}
    (hrun : exec (ClientRun.step n) (ClientRun.start addr sock whiskers track) es = some r) :
    Ended n es r := by
  refine Transition.exec_induct (Ended.start n addr sock whiskers track) ?_ es r hrun
  intro es s e s' _ ih hstep
  exact ih.step (step_effect hstep)

/-- **The status of a run is right if and only if no error was reported on the descriptor.** -/
theorem honest_status_iff {es : List Event} {r : ClientRun}
    (hrun : exec (step n) (start addr sock whiskers track) es = some r) :
    HonestStatus n es r ↔ ∀ e ∈ es, ¬ e.reportsError := by
  have hended := Ended.exec hrun
  constructor
  · intro hhonest e he herr
    obtain ⟨v, hv⟩ := hended.ended ⟨e, he, herr⟩
    exact (hhonest v hv).2 ⟨e, he, herr⟩ (hended.status v hv).1
  · intro hnone v hv
    have herror : ¬ ∃ e ∈ es, e.reportsError := by
      rintro ⟨e, he, herr⟩
      exact hnone e he herr
    refine ⟨fun _ => ?_, fun h => absurd h herror⟩
    exact (hended.status v hv).2.resolve_right herror

end Status

/-- A transfer of one packet that is completed: `::poll` times out once. -/
theorem honest_status_iff_of_completed : letI := gcc48
    ∃ (es : List Event) (r : ClientRun),
      exec (step 1) (start ⟨1, 9⟩ ⟨⟨2, 8⟩⟩ .init true) es = some r ∧
      r.pc = .returned exitSuccess ∧ HonestStatus 1 es r := by
  let _ := gcc48
  let es : List Event := [.enter 1, .send 5 5 true, .leave 6, .poll .timeout none [], .finish]
  have hexec : (exec (step 1) (start ⟨1, 9⟩ ⟨⟨2, 8⟩⟩ .init true) es).map (·.pc)
      = some (.returned exitSuccess) := by
    decide +kernel
  obtain ⟨r, hrun, hpc⟩ := Option.map_eq_some_iff.mp hexec
  refine ⟨es, r, hrun, hpc, (honest_status_iff hrun).mpr ?_⟩
  decide

/-- `POLLERR` after the first of two packets: the run returns `EXIT_SUCCESS`. -/
theorem aborted_transfer_reports_success : letI := gcc48
    ∃ (es : List Event) (r : ClientRun),
      exec (step 2) (start ⟨1, 9⟩ ⟨⟨2, 8⟩⟩ .init true) es = some r ∧
      r.pc = .returned exitSuccess ∧ r.client.nextSeqnum = 1 ∧ ¬ HonestStatus 2 es r := by
  let _ := gcc48
  let es : List Event := [.enter 1, .send 5 5 true, .leave 6, .poll (.ready [pollErr]) none []]
  have hexec : (exec (step 2) (start ⟨1, 9⟩ ⟨⟨2, 8⟩⟩ .init true) es).map
      (fun r => (r.pc, r.client.nextSeqnum)) = some (.returned exitSuccess, 1) := by
    decide +kernel
  obtain ⟨r, hrun, hr⟩ := Option.map_eq_some_iff.mp hexec
  obtain ⟨hpc, hnext⟩ := Prod.mk.inj hr
  refine ⟨es, r, hrun, hpc, hnext, fun hhonest => ?_⟩
  have hall := (hhonest _ hpc).1 rfl
  rw [hnext] at hall
  exact absurd hall (by decide)

/-! ### Sending again after a timeout -/

/-- A rule in the ranges of the optimiser that adds a packet to the window. -/
def Opens (w : Whisker) : Prop := w.InRange ∧ 1 ≤ w.windowIncrement.toInt

theorem Opens.of_action {w w' : Whisker} (hw : Opens w) (h : w'.action = w.action) : Opens w' := by
  refine ⟨hw.1.of_action h, ?_⟩
  simp only [Whisker.action, Prod.mk.injEq] at h
  rw [h.1]
  exact hw.2

/-- The window is open, and stays so by whatever rule is used. -/
structure Opening (r : ClientRun) : Prop where
  rules : ∀ p ∈ r.client.whiskers.leaves, Opens p.2
  window : (∀ why, r.pc ≠ .stopped why) → 1 ≤ r.client.theWindow.toNat

/-- Using a table of rules that open the window opens it. -/
theorem opens_of_usesRule {c : Client} {whiskers : WhiskerTree} {m : Memory} {theWindow : UInt64}
    (hrules : ∀ p ∈ c.whiskers.leaves, Opens p.2) (h : c.UsesRule m whiskers theWindow) :
    (∀ p ∈ whiskers.leaves, Opens p.2) ∧ 1 ≤ theWindow.toNat := by
  obtain ⟨w, window, hused, hwindow, rfl⟩ := h
  obtain ⟨hw, hleaves⟩ :=
    WhiskerTree.forall_of_useWhisker (fun _ _ => Opens.of_action) hrules hused
  refine ⟨hleaves, ?_⟩
  rw [UInt32.toNat_toUInt64]
  exact Whisker.one_le_window hw.1 hw.2 hwindow

theorem Opening.start {whiskers : WhiskerTree} (hrules : ∀ p ∈ whiskers.leaves, Opens p.2)
    (addr : Address) (sock : Socket) (track : Bool) : Opening (start addr sock whiskers track) := by
  rcases start_cases addr sock whiskers track with ⟨why, hstart⟩ | ⟨c, ⟨hused, -⟩, hstart⟩
  · rw [hstart]
    exact ⟨hrules, fun h => absurd rfl (h why)⟩
  · rw [hstart]
    obtain ⟨hleaves, hwindow⟩ := opens_of_usesRule hrules hused
    exact ⟨hleaves, fun _ => hwindow⟩

/-- A sum is larger than its first part when it does not wrap and the second is not zero. -/
theorem lt_add_iff {a w : UInt64} : a < a + w ↔ w ≠ 0 ∧ a.toNat + w.toNat < 2 ^ 64 := by
  have ha := a.toNat_lt
  have hw := w.toNat_lt
  rw [UInt64.lt_iff_toNat_lt, UInt64.toNat_add, Ne, ← UInt64.toNat_inj, UInt64.toNat_zero]
  omega

/-- After a timeout the window alone opens the guard. -/
theorem maySend_of_timeout {n : UInt64} {c : Client} (hnext : c.nextSeqnum < n)
    (hack : c.largestAck = c.nextSeqnum) :
    maySend n c ↔ c.theWindow ≠ 0 ∧ c.nextSeqnum.toNat + c.theWindow.toNat < 2 ^ 64 := by
  unfold maySend
  rw [hack, Bool.and_eq_true, decide_eq_true_eq, decide_eq_true_eq, lt_add_iff]
  exact and_iff_right hnext

section Resume

variable [Platform] {n : UInt64}

theorem Opening.step {r r' : ClientRun} {e : Event} (h : Opening r) (heff : Effect n r e r') :
    Opening r' := by
  cases heff with
  | receive hpc hread hp hreceived =>
    obtain ⟨hleaves, hwindow⟩ := opens_of_usesRule h.rules hreceived.window
    exact ⟨hleaves, fun _ => hwindow⟩
  | _ => exact ⟨h.rules, fun _ => h.window (by simp [*])⟩

theorem Opening.exec {addr : Address} {sock : Socket} {whiskers : WhiskerTree} {track : Bool}
    (hrules : ∀ p ∈ whiskers.leaves, Opens p.2) {es : List Event} {r : ClientRun}
    (hrun : exec (ClientRun.step n) (ClientRun.start addr sock whiskers track) es = some r) :
    Opening r := by
  refine Transition.exec_invariant (Opening.start hrules addr sock track) ?_ hrun
  intro _ _ _ ih hstep
  exact ih.step (step_effect hstep)

/-- From a state some continuation sends a packet. -/
def CanSend (n : UInt64) (r : ClientRun) : Prop :=
  ∃ es r', exec (step n) r es = some r' ∧ r'.sent.length = r.sent.length + 1

theorem CanSend.of_step {r r' : ClientRun} {e : Event} (hstep : step n r e = some r')
    (hsent : r'.sent = r.sent) (h : CanSend n r') : CanSend n r := by
  obtain ⟨es, r'', hrun, hlen⟩ := h
  refine ⟨e :: es, r'', ?_, by rw [hlen, hsent]⟩
  rw [Transition.exec_cons, hstep]
  exact hrun

theorem CanSend.of_inner {r : ClientRun} {startSending : UInt64} (hpc : r.pc = .inner startSending)
    (hmay : maySend n r.client) : CanSend n r := by
  have hstep := step_send 0 hpc hmay (UInt64.le_refl r.client.nextEventTime)
  exact ⟨_, _, (Transition.exec_singleton _ _).trans hstep, List.length_append⟩

theorem CanSend.of_outer {r : ClientRun} (hpc : r.pc = .outer) (hmay : maySend n r.client) :
    CanSend n r :=
  .of_step (step_enter 0 hpc (next_lt_of_maySend hmay)) rfl (.of_inner rfl hmay)

section OpenWindow

variable {r : ClientRun} (hnext : r.client.nextSeqnum < n) (hwindow : r.client.theWindow ≠ 0)
  (hwrap : r.client.nextSeqnum.toNat + r.client.theWindow.toNat < 2 ^ 64)

include hnext hwindow hwrap

/-- When the window is open and does not wrap, a timeout lets the client go on. -/
theorem CanSend.of_polling (hpc : r.pc = .polling) : CanSend n r := by
  refine .of_step (step_timeout none hpc) rfl (.of_outer rfl ?_)
  exact (maySend_of_timeout (c := { r.client with largestAck := r.client.nextSeqnum }) hnext rfl).mpr
    ⟨hwindow, hwrap⟩

/-- A guard that does not hold leads to the poller. -/
theorem CanSend.of_inner_or_polling {startSending : UInt64} (hpc : r.pc = .inner startSending) :
    CanSend n r := by
  by_cases hmay : maySend n r.client
  · exact .of_inner hpc hmay
  · exact .of_step (step_leave 0 hpc hmay) rfl (.of_polling hnext hwindow hwrap rfl)

theorem CanSend.of_running (hstopped : ∀ why, r.pc ≠ .stopped why)
    (hreturned : ∀ v, r.pc ≠ .returned v) : CanSend n r := by
  cases hpc : r.pc with
  | outer =>
    refine .of_step (step_enter 0 hpc hnext) rfl ?_
    exact .of_inner_or_polling (r := { r with pc := .inner 0 }) hnext hwindow hwrap rfl
  | inner startSending => exact .of_inner_or_polling hnext hwindow hwrap hpc
  | polling => exact .of_polling hnext hwindow hwrap hpc
  | returned v => exact absurd hpc (hreturned v)
  | stopped why => exact absurd hpc (hstopped why)

end OpenWindow

/-- **When a timeout lets the client send again.**  In a reachable state whose poll has just timed
out and in which packets are left, the guard of the inner loop holds if and only if the window is
not zero and the sum does not wrap.  When all rules are in the ranges of the optimiser and add
a packet, and few enough packets are asked for, the guard always holds, and from every reachable
state in which the client runs and packets are left it can go on to send one. -/
theorem timeout_resumes {addr : Address} {sock : Socket} {whiskers : WhiskerTree} {track : Bool}
    {es : List Event} {r : ClientRun}
    (hrun : exec (step n) (start addr sock whiskers track) es = some r)
    (hnext : r.client.nextSeqnum < n) :
    (∀ incoming clock r', step n r (.poll .timeout incoming clock) = some r' →
      (maySend n r'.client ↔
        r'.client.theWindow ≠ 0 ∧ r'.client.nextSeqnum.toNat + r'.client.theWindow.toNat < 2 ^ 64)) ∧
    ((∀ p ∈ whiskers.leaves, p.2.InRange ∧ 1 ≤ p.2.windowIncrement.toInt) →
      n.toNat ≤ 2 ^ 64 - 1000001 →
      (∀ incoming clock r', step n r (.poll .timeout incoming clock) = some r' →
        maySend n r'.client) ∧
      ((∀ why, r.pc ≠ .stopped why) → (∀ v, r.pc ≠ .returned v) → CanSend n r)) := by
  have hguard : ∀ incoming clock r', step n r (.poll .timeout incoming clock) = some r' →
      (maySend n r'.client ↔
        r'.client.theWindow ≠ 0 ∧
          r'.client.nextSeqnum.toNat + r'.client.theWindow.toNat < 2 ^ 64) := by
    intro incoming clock r' hstep
    cases step_effect hstep with
    | timeout hpc => exact maySend_of_timeout hnext rfl
  refine ⟨hguard, fun hrules hn => ?_⟩
  have hinv := Inv.exec hrun
  have hopening := Opening.exec hrules hrun
  -- a window between one and a million, from a number below `n`, does not wrap
  have hopen : (∀ why, r.pc ≠ .stopped why) → r.client.theWindow ≠ 0 ∧
      r.client.nextSeqnum.toNat + r.client.theWindow.toNat < 2 ^ 64 := by
    intro hstopped
    have hpos := hopening.window hstopped
    have hle := hinv.window_le
    have hnle := hinv.next_le
    refine ⟨fun hzero => ?_, by omega⟩
    rw [hzero] at hpos
    exact absurd hpos (by decide)
  refine ⟨fun incoming clock r' hstep => ?_, fun hstopped hreturned => ?_⟩
  · refine (hguard incoming clock r' hstep).mpr ?_
    cases step_effect hstep with
    | timeout hpc => exact hopen (by simp [hpc])
  · obtain ⟨hwindow, hwrap⟩ := hopen hstopped
    exact .of_running hnext hwindow hwrap hstopped hreturned

end Resume

/-- The default table, after the first of two packets left. -/
theorem timeout_resumes_of_default : letI := gcc48
    ∃ (es : List Event) (r : ClientRun),
      exec (step 2) (start ⟨1, 9⟩ ⟨⟨2, 8⟩⟩ .init true) es = some r ∧ r.pc = .polling ∧
      (∀ r', step 2 r (.poll .timeout none []) = some r' → maySend 2 r'.client) ∧ CanSend 2 r := by
  let _ := gcc48
  let es : List Event := [.enter 1, .send 5 5 true, .leave 6]
  have hexec : (exec (step 2) (start ⟨1, 9⟩ ⟨⟨2, 8⟩⟩ .init true) es).map
      (fun r => (r.pc, r.client.nextSeqnum)) = some (.polling, 1) := by
    decide +kernel
  obtain ⟨r, hrun, hr⟩ := Option.map_eq_some_iff.mp hexec
  obtain ⟨hpc, hseq⟩ := Prod.mk.inj hr
  have hnext : r.client.nextSeqnum < 2 := by
    rw [hseq]
    decide
  have hrules : ∀ p ∈ WhiskerTree.init.leaves, p.2.InRange ∧ 1 ≤ p.2.windowIncrement.toInt := by
    intro p hp
    rw [List.mem_singleton.mp hp]
    exact ⟨by decide +kernel, by decide⟩
  obtain ⟨hmay, hcan⟩ := (timeout_resumes hrun hnext).2 hrules (by decide)
  exact ⟨es, r, hrun, hpc, fun r' => hmay none [] r', hcan (by simp [hpc]) (by simp [hpc])⟩

/-- A table whose only rule adds no packet: the window stays at zero, and the guard does not hold
after a timeout. -/
theorem zero_window_stops_sending : letI := gcc48
    ∃ (t : WhiskerTree) (es : List Event) (r r' : ClientRun),
      t.WellFormed ∧ t.region = WhiskerTree.rootDomain ∧ (∀ p ∈ t.leaves, p.2.InRange) ∧
      exec (step 1) (start ⟨1, 9⟩ ⟨⟨2, 8⟩⟩ t true) es = some r ∧ r.client.nextSeqnum < 1 ∧
      step 1 r (.poll .timeout none []) = some r' ∧ ¬ maySend 1 r'.client := by
  let _ := gcc48
  let t : WhiskerTree := .leaf WhiskerTree.rootDomain (.make 0 1 3 WhiskerTree.rootDomain)
  let es : List Event := [.enter 1, .leave 2]
  have hexec : (exec (step 1) (start ⟨1, 9⟩ ⟨⟨2, 8⟩⟩ t true) es).map
      (fun r => (r.pc, r.client.nextSeqnum, r.client.theWindow)) = some (.polling, 0, 0) := by
    decide +kernel
  obtain ⟨r, hrun, hr⟩ := Option.map_eq_some_iff.mp hexec
  simp only [Prod.mk.injEq] at hr
  obtain ⟨hpc, hseq, hwindow⟩ := hr
  refine ⟨t, es, r, _, .leaf (.refl _), rfl, ?_, hrun, ?_, step_timeout none hpc, ?_⟩
  · intro p hp
    rw [List.mem_singleton.mp hp]
    decide +kernel
  · rw [hseq]
    decide
  · simp [maySend, hseq, hwindow]

end ClientRun

end SendReceive
