import SendReceive.ClientProgress

/-!
# The transfer comes to its end

A turn of the outer loop is three steps and the packets it sends.  Each turn that ends in a timeout
has sent a packet: the timeout before it opened the guard of the inner loop, and only sending closes
it again.  So a client that is not woken up without a need, and does not wait for the clock, takes
no more than four steps for each packet, and at every point it can come to the end of the transfer
by itself, whatever it has received.

## Main definitions

* `ClientRun.Event.woken`, `ClientRun.Event.waits` — the steps that the client does not pay for.
* `ClientRun.Event.own` — the steps that a client takes by itself.
* `ClientRun.Accounts` — the steps taken and what pays for them.

## Main results

* `ClientRun.Accounts.step` — one step and what pays for it.
* `ClientRun.completes` — **the transfer comes to its end**.
-/

namespace SendReceive

open Transition (exec)

/-- The steps that a turn of the outer loop has come to. -/
def Pc.steps : Pc → ℕ
  | .outer => 0
  | .inner _ => 1
  | .polling => 2
  | .returned _ => 3
  | .stopped _ => 3

namespace ClientRun

/-- The poller comes back because of the descriptor. -/
def Event.woken : Event → Bool
  | .poll (.ready _) _ _ => true
  | _ => false

/-- A turn of the inner loop before the next packet is due. -/
def Event.waits : Event → Bool
  | .wait _ => true
  | _ => false

/-- What a client does by itself, when the system refuses it nothing. -/
def Event.own : Event → Bool
  | .enter _ => true
  | .finish => true
  | .send _ _ accepted => accepted
  | .leave _ => true
  | .poll .timeout _ _ => true
  | _ => false

/-- A round of the poller that times out. -/
def Event.timesOut : Event → Bool
  | .poll .timeout _ _ => true
  | _ => false

/-! ### What pays for a step -/

/-- **The steps taken and what pays for them**: of a run with so many steps, timeouts, rounds of the
poller that were woken up, and turns that waited. -/
structure Accounts (n : UInt64) (steps timeouts woken waits : ℕ) (r : ClientRun) : Prop where
  steps_le : steps ≤ 3 * (timeouts + woken) + r.sent.length + waits + r.pc.steps
  timeouts_le : timeouts ≤ r.sent.length
  /-- After the last timeout the guard is open until a packet is sent. -/
  outer : r.pc = .outer →
    timeouts < r.sent.length ∨ maySend n r.client ∨ ¬ r.client.nextSeqnum < n
  inner : ∀ startSending, r.pc = .inner startSending →
    timeouts < r.sent.length ∨ maySend n r.client
  polling : r.pc = .polling → timeouts < r.sent.length

/-- The window is open and does not wrap. -/
theorem open_of_running {n : UInt64} {r : ClientRun} (hn : n.toNat ≤ 2 ^ 64 - 1000001)
    (hinv : Inv n r) (hopening : Opening r) (hrunning : ∀ why, r.pc ≠ .stopped why) :
    r.client.theWindow ≠ 0 ∧ r.client.nextSeqnum.toNat + r.client.theWindow.toNat < 2 ^ 64 := by
  have hpos := hopening.window hrunning
  have hle := hinv.window_le
  have hnext := hinv.next_le
  refine ⟨fun hzero => ?_, by omega⟩
  rw [hzero] at hpos
  exact absurd hpos (by decide)

section Runs

variable [Platform] {n : UInt64} {r r' : ClientRun} {e : Event}

omit [Platform] in
/-- Once the loops are left, it is enough that the steps are paid for. -/
theorem Accounts.of_left {steps timeouts woken waits : ℕ}
    (hsteps : steps ≤ 3 * (timeouts + woken) + r.sent.length + waits + r.pc.steps)
    (hle : timeouts ≤ r.sent.length)
    (hpc : (∃ v, r.pc = .returned v) ∨ ∃ why, r.pc = .stopped why) :
    Accounts n steps timeouts woken waits r := by
  rcases hpc with ⟨v, hpc⟩ | ⟨why, hpc⟩ <;>
    refine ⟨hsteps, hle, fun h => ?_, fun _ h => ?_, fun h => ?_⟩ <;>
    cases hpc.symm.trans h

omit [Platform] in
/-- The outer loop goes on after a packet was sent. -/
theorem Accounts.of_outer {steps timeouts woken waits : ℕ}
    (hsteps : steps ≤ 3 * (timeouts + woken) + r.sent.length + waits)
    (hlt : timeouts < r.sent.length) (hpc : r.pc = .outer) :
    Accounts n steps timeouts woken waits r := by
  refine ⟨hsteps.trans (Nat.le_add_right _ _), hlt.le, fun _ => Or.inl hlt, fun _ h => ?_,
    fun h => ?_⟩ <;>
    cases hpc.symm.trans h

/-- One step and what pays for it. -/
theorem Accounts.step {steps timeouts woken waits : ℕ} (hn : n.toNat ≤ 2 ^ 64 - 1000001)
    (h : Accounts n steps timeouts woken waits r) (hinv : Inv n r) (hopening : Opening r)
    (heff : Effect n r e r') :
    Accounts n (steps + 1) (timeouts + e.timesOut.toNat) (woken + e.woken.toNat)
      (waits + e.waits.toNat) r' := by
  obtain ⟨hsteps, hle, houter, hinner, hpolling⟩ := h
  cases heff with
  | enter hpc hnext =>
    rw [hpc] at hsteps
    refine ⟨Nat.succ_le_succ hsteps, hle, fun hpc' => (by cases hpc'), fun _ _ => ?_,
      fun hpc' => (by cases hpc')⟩
    rcases houter hpc with hlt | hmay | hend
    · exact Or.inl hlt
    · exact Or.inr hmay
    · exact absurd hnext hend
  | finish hpc hnext =>
    rw [hpc] at hsteps
    refine .of_left ?_ hle (Or.inl ⟨_, rfl⟩)
    show steps + 1 ≤ 3 * (timeouts + woken) + r.sent.length + waits + 3
    have hzero : Pc.outer.steps = 0 := rfl
    omega
  | wait hpc hmay hdue =>
    refine ⟨?_, hle, houter, hinner, hpolling⟩
    show steps + 1 ≤ 3 * (timeouts + woken) + r.sent.length + (waits + 1) + r.pc.steps
    omega
  | @send now sentAt startSending hpc hmay hdue =>
    have hlength : (r.sent ++ [request r.client sentAt]).length = r.sent.length + 1 :=
      List.length_append
    refine ⟨?_, ?_, fun hpc' => ?_, fun _ _ => Or.inl ?_, fun hpc' => ?_⟩
    · show steps + 1 ≤ 3 * (timeouts + woken) + (r.sent ++ [_]).length + waits + r.pc.steps
      omega
    · exact hle.trans (by show r.sent.length ≤ (r.sent ++ [_]).length; omega)
    · cases hpc.symm.trans hpc'
    · show timeouts < (r.sent ++ [_]).length
      omega
    · cases hpc.symm.trans hpc'
  | refused hpc =>
    rw [hpc] at hsteps
    exact .of_left ((Nat.succ_le_succ hsteps).trans (Nat.le_succ _)) hle (Or.inr ⟨_, rfl⟩)
  | leave hpc hmay =>
    rw [hpc] at hsteps
    refine ⟨Nat.succ_le_succ hsteps, hle, fun hpc' => (by cases hpc'),
      fun _ hpc' => (by cases hpc'), fun _ => ?_⟩
    exact (hinner _ hpc).resolve_right hmay
  | pollFails hpc =>
    rw [hpc] at hsteps
    exact .of_left (Nat.succ_le_succ hsteps) hle (Or.inr ⟨_, rfl⟩)
  | timeout hpc =>
    have hlt := hpolling hpc
    have hopen := open_of_running hn hinv hopening (by simp [hpc])
    rw [hpc] at hsteps
    refine ⟨?_, hlt, fun _ => Or.inr ?_, fun _ hpc' => (by cases hpc'), fun hpc' => (by cases hpc')⟩
    · show steps + 1 ≤ 3 * (timeouts + 1 + woken) + r.sent.length + waits + 0
      have htwo : Pc.polling.steps = 2 := rfl
      omega
    · -- the timeout opens the guard when packets are left
      by_cases hnext : r.client.nextSeqnum < n
      · exact Or.inl ((maySend_of_timeout
          (c := { r.client with largestAck := r.client.nextSeqnum }) hnext rfl).mpr hopen)
      · exact Or.inr hnext
  | pollError hpc =>
    rw [hpc] at hsteps
    refine .of_left ?_ hle (Or.inl ⟨_, rfl⟩)
    show steps + 1 ≤ 3 * (timeouts + (woken + 1)) + r.sent.length + waits + 3
    have htwo : Pc.polling.steps = 2 := rfl
    omega
  | idle hpc =>
    have hlt := hpolling hpc
    rw [hpc] at hsteps
    refine .of_outer ?_ hlt rfl
    show steps + 1 ≤ 3 * (timeouts + (woken + 1)) + r.sent.length + waits
    have htwo : Pc.polling.steps = 2 := rfl
    omega
  | receive hpc =>
    have hlt := hpolling hpc
    rw [hpc] at hsteps
    refine .of_outer ?_ hlt rfl
    show steps + 1 ≤ 3 * (timeouts + (woken + 1)) + r.sent.length + waits
    have htwo : Pc.polling.steps = 2 := rfl
    omega
  | dies hpc =>
    rw [hpc] at hsteps
    refine .of_left ?_ hle (Or.inr ⟨_, rfl⟩)
    show steps + 1 ≤ 3 * (timeouts + (woken + 1)) + r.sent.length + waits + 3
    have htwo : Pc.polling.steps = 2 := rfl
    omega

variable {addr : Address} {sock : Socket} {whiskers : WhiskerTree} {track : Bool}

omit [Platform] in
theorem Accounts.start (n : UInt64) (addr : Address) (sock : Socket) (whiskers : WhiskerTree)
    (track : Bool) (hopening : Opening (start addr sock whiskers track))
    (hn : n.toNat ≤ 2 ^ 64 - 1000001) :
    Accounts n 0 0 0 0 (start addr sock whiskers track) := by
  have hinv := Inv.start n addr sock whiskers track
  rcases start_cases addr sock whiskers track with ⟨why, hstart⟩ | ⟨c, hset, hstart⟩
  · rw [hstart]
    exact ⟨Nat.zero_le _, Nat.zero_le _, fun hpc => (by cases hpc), fun _ hpc => (by cases hpc),
      fun hpc => (by cases hpc)⟩
  · rw [hstart] at hinv hopening ⊢
    refine ⟨Nat.zero_le _, Nat.zero_le _, fun _ => Or.inr ?_, fun _ hpc => (by cases hpc),
      fun hpc => (by cases hpc)⟩
    have hopen := open_of_running hn hinv hopening (by simp)
    have hack : c.largestAck = c.nextSeqnum := by
      obtain ⟨-, intersend, hc⟩ := hset
      rw [hc]
      rfl
    by_cases hnext : c.nextSeqnum < n
    · exact Or.inl ((maySend_of_timeout hnext hack).mpr hopen)
    · exact Or.inr hnext

/-- What pays for a run. -/
theorem Accounts.exec (hrules : ∀ p ∈ whiskers.leaves, Opens p.2)
    (hn : n.toNat ≤ 2 ^ 64 - 1000001) {es : List Event}
    (hrun : exec (ClientRun.step n) (ClientRun.start addr sock whiskers track) es = some r) :
    Accounts n es.length (es.countP Event.timesOut) (es.countP Event.woken)
      (es.countP Event.waits) r := by
  refine Transition.exec_induct (P := fun es r => Accounts n es.length (es.countP Event.timesOut)
    (es.countP Event.woken) (es.countP Event.waits) r)
    (Accounts.start n addr sock whiskers track (.start hrules addr sock track) hn) ?_ es r hrun
  intro es s e s' hexec ih hstep
  rw [Transition.countP_concat, Transition.countP_concat, Transition.countP_concat,
    List.length_append, List.length_singleton]
  exact ih.step hn (Inv.exec hexec) (Opening.exec hrules hexec) (step_effect hstep)

/-! ### Going on alone -/

omit [Platform] in
/-- What the client does by itself is paid for. -/
theorem Event.not_woken_of_own (h : e.own) : e.woken = false ∧ e.waits = false := by
  cases e with
  | wait now => cases h
  | poll outcome incoming clock =>
    cases outcome with
    | ready revents => cases h
    | _ => exact ⟨rfl, rfl⟩
  | _ => exact ⟨rfl, rfl⟩

omit [Platform] in
theorem countP_snoc_of_own (h : e.own) (es : List Event) :
    (es ++ [e]).countP Event.woken = es.countP Event.woken ∧
      (es ++ [e]).countP Event.waits = es.countP Event.waits := by
  obtain ⟨hwoken, hwaits⟩ := Event.not_woken_of_own h
  rw [Transition.countP_concat, Transition.countP_concat, hwoken, hwaits]
  exact ⟨rfl, rfl⟩

theorem step_finish (hpc : r.pc = .outer) (hnext : ¬ r.client.nextSeqnum < n) :
    step n r .finish = some { r with pc := .returned exitSuccess } := by
  unfold step
  rw [hpc]
  exact if_neg hnext

/-- In its loops the client has a step of its own, which does not stop it. -/
theorem exists_own (hstopped : ∀ why, r.pc ≠ .stopped why) (hreturned : ∀ v, r.pc ≠ .returned v) :
    ∃ e r', e.own ∧ step n r e = some r' ∧ (∀ why, r'.pc ≠ .stopped why) ∧
      ∀ v, r'.pc = .returned v → v = exitSuccess ∧ ¬ r'.client.nextSeqnum < n := by
  cases hpc : r.pc with
  | outer =>
    by_cases hnext : r.client.nextSeqnum < n
    · exact ⟨_, _, rfl, step_enter 0 hpc hnext, fun _ => Pc.noConfusion, fun _ => Pc.noConfusion⟩
    · refine ⟨.finish, _, rfl, step_finish hpc hnext, fun _ => Pc.noConfusion, fun v hv => ?_⟩
      exact ⟨(Pc.returned.inj hv).symm, hnext⟩
  | inner startSending =>
    by_cases hmay : maySend n r.client
    · refine ⟨_, _, rfl, step_send 0 hpc hmay (UInt64.le_refl r.client.nextEventTime), ?_, ?_⟩
      · intro why hwhy
        cases hpc.symm.trans hwhy
      · intro v hv
        cases hpc.symm.trans hv
    · exact ⟨_, _, rfl, step_leave 0 hpc hmay, fun _ => Pc.noConfusion, fun _ => Pc.noConfusion⟩
  | polling =>
    exact ⟨_, _, rfl, step_timeout none hpc, fun _ => Pc.noConfusion, fun _ => Pc.noConfusion⟩
  | returned v => exact absurd hpc (hreturned v)
  | stopped why => exact absurd hpc (hstopped why)

/-- The steps that a run has room for. -/
theorem length_le_of_exec (hrules : ∀ p ∈ whiskers.leaves, Opens p.2)
    (hn : n.toNat ≤ 2 ^ 64 - 1000001) {es : List Event}
    (hrun : exec (step n) (start addr sock whiskers track) es = some r) :
    es.length ≤ 4 * n.toNat + 3 * es.countP Event.woken + es.countP Event.waits + 3 := by
  obtain ⟨hsteps, hle, -⟩ := Accounts.exec hrules hn hrun
  have hinv := Inv.exec hrun
  have hlength := hinv.length_sent
  have hnext := hinv.next_le
  have hpc : r.pc.steps ≤ 3 := by cases r.pc <;> simp [Pc.steps]
  omega

/-- A run whose end leaves room for `room` steps can be taken to its end. -/
theorem exists_own_exec (hrules : ∀ p ∈ whiskers.leaves, Opens p.2)
    (hn : n.toNat ≤ 2 ^ 64 - 1000001) (room : ℕ) : ∀ (es : List Event) (r : ClientRun),
    exec (step n) (start addr sock whiskers track) es = some r →
    4 * n.toNat + 3 * es.countP Event.woken + es.countP Event.waits + 3 ≤ es.length + room →
    (∀ why, r.pc ≠ .stopped why) → (∀ v, r.pc ≠ .returned v) →
    ∃ es' r', (∀ e ∈ es', e.own) ∧ exec (step n) r es' = some r' ∧ r'.pc = .returned exitSuccess ∧
      r'.sent.length = n.toNat := by
  induction room with
  | zero =>
    intro es r hrun hroom hstopped hreturned
    -- one more step would be too many
    obtain ⟨e, r', hown, hstep, -⟩ := exists_own (n := n) hstopped hreturned
    obtain ⟨hwoken, hwaits⟩ := countP_snoc_of_own hown es
    have hlength := length_le_of_exec hrules hn (Transition.exec_snoc.mpr ⟨r, hrun, hstep⟩)
    rw [hwoken, hwaits, List.length_append, List.length_singleton] at hlength
    omega
  | succ room ih =>
    intro es r hrun hroom hstopped hreturned
    obtain ⟨e, r', hown, hstep, hstopped', hend⟩ := exists_own (n := n) hstopped hreturned
    have hrun' := Transition.exec_snoc.mpr ⟨r, hrun, hstep⟩
    by_cases hreturned' : ∃ v, r'.pc = .returned v
    · obtain ⟨v, hv⟩ := hreturned'
      obtain ⟨rfl, hlast⟩ := hend v hv
      have hinv := Inv.exec hrun'
      have hle := hinv.next_le
      rw [UInt64.lt_iff_toNat_lt] at hlast
      refine ⟨[e], r', by simpa using hown, (Transition.exec_singleton _ _).trans hstep, hv, ?_⟩
      rw [hinv.length_sent]
      omega
    · have hroom' : 4 * n.toNat + 3 * (es ++ [e]).countP Event.woken
          + (es ++ [e]).countP Event.waits + 3 ≤ (es ++ [e]).length + room := by
        obtain ⟨hwoken, hwaits⟩ := countP_snoc_of_own hown es
        rw [hwoken, hwaits, List.length_append, List.length_singleton]
        omega
      obtain ⟨es', r'', howns, hexec, hpc, hsent⟩ := ih (es ++ [e]) r' hrun' hroom' hstopped'
        fun v hv => hreturned' ⟨v, hv⟩
      refine ⟨e :: es', r'', List.forall_mem_cons.mpr ⟨hown, howns⟩, ?_, hpc, hsent⟩
      rw [Transition.exec_cons, hstep]
      exact hexec

/-- **The transfer comes to its end.**  With rules that open the window, and a number of packets
that leaves room for it, a run has no more than four steps for each packet, three for each time the
poller came back because of the descriptor, one for each turn that waited, and three more; and from
every state of a run in which the client has not stopped or returned, it can by itself send all
packets that are left and return `EXIT_SUCCESS`. -/
theorem completes {es : List Event}
    (hrun : exec (step n) (start addr sock whiskers track) es = some r)
    (hrules : ∀ p ∈ whiskers.leaves, p.2.InRange ∧ 1 ≤ p.2.windowIncrement.toInt)
    (hn : n.toNat ≤ 2 ^ 64 - 1000001) :
    es.length ≤ 4 * n.toNat + 3 * es.countP Event.woken + es.countP Event.waits + 3 ∧
    ((∀ why, r.pc ≠ .stopped why) → (∀ v, r.pc ≠ .returned v) →
      ∃ es' r', (∀ e ∈ es', e.own) ∧ exec (step n) r es' = some r' ∧
        r'.pc = .returned exitSuccess ∧ r'.sent.length = n.toNat) :=
  ⟨length_le_of_exec hrules hn hrun,
    exists_own_exec hrules hn _ es r hrun (Nat.le_add_left _ _)⟩

end Runs

/-- The default table, a thousand packets, after one was sent and the poller came back once without
anything to read. -/
theorem completes_of_default : letI := gcc48
    ∃ (es : List Event) (r : ClientRun),
      exec (step 1000) (start ⟨1, 9⟩ ⟨⟨2, 8⟩⟩ .init true) es = some r ∧ r.sent.length = 1 ∧
      es.length ≤ 4 * 1000 + 3 * 1 + 1 + 3 ∧
      ∃ es' r', (∀ e ∈ es', e.own) ∧ exec (step 1000) r es' = some r' ∧
        r'.pc = .returned exitSuccess ∧ r'.sent.length = 1000 := by
  let _ := gcc48
  let es : List Event := [.enter 1, .wait 0, .send 5 5 true, .leave 6, .poll (.ready [0]) none []]
  have hexec : (exec (step 1000) (start ⟨1, 9⟩ ⟨⟨2, 8⟩⟩ .init true) es).map
      (fun r => (r.pc, r.sent.length)) = some (.outer, 1) := by
    decide +kernel
  obtain ⟨r, hrun, hr⟩ := Option.map_eq_some_iff.mp hexec
  obtain ⟨hpc, hsent⟩ := Prod.mk.inj hr
  have hrules : ∀ p ∈ WhiskerTree.init.leaves, p.2.InRange ∧ 1 ≤ p.2.windowIncrement.toInt := by
    intro p hp
    rw [List.mem_singleton.mp hp]
    exact ⟨by decide +kernel, by decide⟩
  obtain ⟨hlength, hend⟩ := completes hrun hrules (by decide)
  exact ⟨es, r, hrun, hsent, hlength, hend (by simp [hpc]) (by simp [hpc])⟩

end ClientRun

end SendReceive
