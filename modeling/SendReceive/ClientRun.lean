import SendReceive.Client
import SendReceive.Lib.Transition

/-!
# Runs of the client

`Client::run` is a loop that sends while the window is open, and then polls.  Its runs are those
of a transition system: the program counter says where in the loops the client is, and an event
is one turn of the inner loop, or the step between two loops, with what the system contributes
to it (readings of the clock, the outcome of `::poll`, the datagram that came).

## Main definitions

* `ClientRun`, `ClientRun.Event`, `ClientRun.step` — the states, the events, the steps.
* `ClientRun.start` — the state in which the loops begin.
* `ClientRun.Effect` — what each step can do.

## Main results

* `ClientRun.step_effect` — **every step does what `Effect` says**.
* `ClientRun.Inv.exec` — what holds in all reachable states.
-/

namespace SendReceive

/-- Where in the loops of `Client::run` the client is. -/
inductive Pc where
  /-- At the condition of the outer loop. -/
  | outer
  /-- At the condition of the inner loop, which was entered at the time `startSending`. -/
  | inner (startSending : UInt64)
  /-- After the inner loop. -/
  | polling
  /-- `run` has returned. -/
  | returned (exitStatus : UInt32)
  /-- The program was stopped. -/
  | stopped (why : Stop)
  deriving DecidableEq, Repr

/-- A client that runs, with the datagrams that have left it. -/
structure ClientRun where
  client : Client
  sent : List Datagram
  pc : Pc

namespace ClientRun

/-- What happens to a client that runs. -/
inductive Event where
  /-- The outer loop is entered at a time. -/
  | enter (startSending : UInt64)
  /-- The outer loop is left. -/
  | finish
  /-- A turn of the inner loop, before the next packet is due. -/
  | wait (now : UInt64)
  /-- A turn of the inner loop in which a packet is sent, with the time it is stamped with and
  whether `::sendto` took it. -/
  | send (now sentAt : UInt64) (accepted : Bool)
  /-- The inner loop is left at a time. -/
  | leave (now : UInt64)
  /-- A round of the poller, with the outcome of `::poll`, the datagram that came and the clock
  readings of the callback. -/
  | poll (outcome : SysPoll) (incoming : Option Datagram) (clock : Clock)
  deriving DecidableEq, Repr

/-- The datagram that the callback of the poller receives. -/
def Event.received : Event → Option Datagram
  | .poll (.ready revents) incoming _ =>
    if Poller.readable (revents.headD 0) then incoming else none
  | _ => none

/-- The clock readings of the callback. -/
def Event.clock : Event → Clock
  | .poll _ _ clock => clock
  | _ => []

/-- A round of the poller. -/
def Event.isPoll : Event → Bool
  | .poll _ _ _ => true
  | _ => false

/-- The condition of the inner loop. -/
def maySend (numTotalPackets : UInt64) (c : Client) : Bool :=
  c.nextSeqnum < numTotalPackets && c.nextSeqnum < c.largestAck + c.theWindow

/-- The state in which `Client::run` comes to its loops. -/
def start (addr : Address) (sock : Socket) (whiskers : WhiskerTree) (track : Bool) : ClientRun :=
  match (Client.make addr sock whiskers track).setWindowIntersend with
  | .error why => ⟨.make addr sock whiskers track, [], .stopped why⟩
  | .ok c => ⟨c, [], .outer⟩

theorem start_cases (addr : Address) (sock : Socket) (whiskers : WhiskerTree) (track : Bool) :
    (∃ why, start addr sock whiskers track = ⟨.make addr sock whiskers track, [], .stopped why⟩) ∨
    ∃ c, Client.WindowSet (.make addr sock whiskers track) c ∧
      start addr sock whiskers track = ⟨c, [], .outer⟩ := by
  unfold start
  cases hset : (Client.make addr sock whiskers track).setWindowIntersend with
  | error why => exact Or.inl ⟨why, rfl⟩
  | ok c => exact Or.inr ⟨c, Client.setWindowIntersend_eq_ok hset, rfl⟩

/-- The client in which the loops begin is as it was made, but for the first window. -/
theorem client_start (addr : Address) (sock : Socket) (whiskers : WhiskerTree) (track : Bool) :
    ∃ whiskers' theWindow intersend, theWindow.toNat ≤ 1000000 ∧
      (start addr sock whiskers track).client = { Client.make addr sock whiskers track with
        whiskers := whiskers', theWindow := theWindow, intersendTime := intersend } := by
  rcases start_cases addr sock whiskers track with
    ⟨why, hstart⟩ | ⟨c, ⟨hused, intersend, hc⟩, hstart⟩
  · exact ⟨whiskers, 0, 0, Nat.zero_le _, by rw [hstart]; rfl⟩
  · exact ⟨c.whiskers, c.theWindow, intersend, hused.window_le, by rw [hstart]; exact hc⟩

theorem sent_start (addr : Address) (sock : Socket) (whiskers : WhiskerTree) (track : Bool) :
    (start addr sock whiskers track).sent = [] := by
  rcases start_cases addr sock whiskers track with ⟨why, hstart⟩ | ⟨c, -, hstart⟩ <;> rw [hstart]

section Step

variable [Platform]

/-- The packet as it leaves, and the client after the turn of the inner loop that sent it at
the time `now`. -/
def sendTurn (c : Client) (now sentAt : UInt64) (accepted : Bool) :
    Except Stop (Datagram × Client) := do
  let (sendPacket, datagram, _) ← c.sock.send c.sendPacket accepted [sentAt]
  return (datagram, { c with
    memory := c.memory.packetSent sendPacket
    lastPacketSent := now
    nextSeqnum := c.nextSeqnum + 1 })

/-- The rest of a turn of the outer loop, after the poller came back.  All readings of the clock
were taken. -/
def afterPoll (r : ClientRun) (pollResult : Poller.Result) (env : Client.Env) : Option ClientRun :=
  if env.clock = [] then
    match pollResult.result with
    | .success => some { r with client := env.client, pc := .outer }
    | .timeout =>
      some { r with client := { env.client with largestAck := env.client.nextSeqnum }, pc := .outer }
    | .exit => some { r with client := env.client, pc := .returned pollResult.exitStatus }
  else none

/-- One step of `Client::run( numTotalPackets )`.  The timeout is narrowed to an `int`. -/
def step (numTotalPackets : UInt64) (r : ClientRun) (e : Event) : Option ClientRun :=
  match r.pc, e with
  | .outer, .enter startSending =>
    if r.client.nextSeqnum < numTotalPackets then some { r with pc := .inner startSending } else none
  | .outer, .finish =>
    if r.client.nextSeqnum < numTotalPackets then none
    else some { r with pc := .returned exitSuccess }
  | .inner _, .wait now =>
    if maySend numTotalPackets r.client ∧ now < r.client.nextEventTime then some r else none
  | .inner _, .send now sentAt accepted =>
    if maySend numTotalPackets r.client ∧ r.client.nextEventTime ≤ now then
      match sendTurn r.client now sentAt accepted with
      | .error why => some { r with pc := .stopped why }
      | .ok (datagram, client) => some { r with client := client, sent := r.sent ++ [datagram] }
    else none
  | .inner startSending, .leave now =>
    if maySend numTotalPackets r.client then none
    else
      some { r with
        client := { r.client with
          utility := r.client.utility.sendingDuration (now - startSending) }
        pc := .polling }
  | .polling, .poll outcome incoming clock =>
    match Poller.poll [Client.receiveAction] r.client.rto.toUInt32.toInt32 (fun _ _ => outcome)
        ⟨r.client, incoming, clock⟩ with
    | .error why => if why = .clock then none else some { r with pc := .stopped why }
    | .ok (pollResult, _, env) => afterPoll r pollResult env
  | _, _ => none

/-! ### What a step can do -/

/-- The datagram a client sends, stamped with the time `sentAt`. -/
def request (c : Client) (sentAt : UInt64) : Datagram :=
  ⟨c.sock.localAddr, c.addr, (c.sendPacket.setSendTimestamp sentAt).str⟩

/-- The datagram a client sends decodes to the packet it stamped. -/
theorem packet_request (c : Client) (sentAt : UInt64) :
    (request c sentAt).packet
      = .ok { c.sendPacket.setSendTimestamp sentAt with addr_ := c.sock.localAddr } :=
  Packet.ofString_str c.sock.localAddr _

theorem sendTurn_accepted (c : Client) (now sentAt : UInt64) :
    sendTurn c now sentAt true = .ok (request c sentAt,
      { c with lastPacketSent := now, nextSeqnum := c.nextSeqnum + 1 }) := rfl

theorem sendTurn_refused (c : Client) (now sentAt : UInt64) :
    sendTurn c now sentAt false = .error (.throw (.exception "sendto error")) := rfl

/-- What each step can do. -/
inductive Effect (numTotalPackets : UInt64) (r : ClientRun) : Event → ClientRun → Prop
  | enter {startSending : UInt64} (hpc : r.pc = .outer)
      (hnext : r.client.nextSeqnum < numTotalPackets) :
      Effect numTotalPackets r (.enter startSending) { r with pc := .inner startSending }
  | finish (hpc : r.pc = .outer) (hnext : ¬ r.client.nextSeqnum < numTotalPackets) :
      Effect numTotalPackets r .finish { r with pc := .returned exitSuccess }
  | wait {now startSending : UInt64} (hpc : r.pc = .inner startSending)
      (hmay : maySend numTotalPackets r.client) (hdue : now < r.client.nextEventTime) :
      Effect numTotalPackets r (.wait now) r
  | send {now sentAt startSending : UInt64} (hpc : r.pc = .inner startSending)
      (hmay : maySend numTotalPackets r.client) (hdue : r.client.nextEventTime ≤ now) :
      Effect numTotalPackets r (.send now sentAt true) { r with
        client := { r.client with lastPacketSent := now, nextSeqnum := r.client.nextSeqnum + 1 }
        sent := r.sent ++ [request r.client sentAt] }
  | refused {now sentAt startSending : UInt64} (hpc : r.pc = .inner startSending)
      (hmay : maySend numTotalPackets r.client) (hdue : r.client.nextEventTime ≤ now) (why : Stop) :
      Effect numTotalPackets r (.send now sentAt false) { r with pc := .stopped why }
  | leave {now startSending : UInt64} (hpc : r.pc = .inner startSending)
      (hmay : ¬ maySend numTotalPackets r.client) (utility : Utility) :
      Effect numTotalPackets r (.leave now)
        { r with client := { r.client with utility := utility }, pc := .polling }
  | pollFails {incoming : Option Datagram} {clock : Clock} (hpc : r.pc = .polling) (why : Stop) :
      Effect numTotalPackets r (.poll .error incoming clock) { r with pc := .stopped why }
  | timeout {incoming : Option Datagram} (hpc : r.pc = .polling) :
      Effect numTotalPackets r (.poll .timeout incoming []) { r with
        client := { r.client with largestAck := r.client.nextSeqnum }
        pc := .outer }
  | pollError {revents : List UInt16} {incoming : Option Datagram} (hpc : r.pc = .polling)
      (herror : reportsError (revents.headD 0)) :
      Effect numTotalPackets r (.poll (.ready revents) incoming [])
        { r with pc := .returned exitSuccess }
  | idle {revents : List UInt16} {incoming : Option Datagram} (hpc : r.pc = .polling)
      (herror : ¬ reportsError (revents.headD 0)) (hread : ¬ Poller.readable (revents.headD 0)) :
      Effect numTotalPackets r (.poll (.ready revents) incoming []) { r with pc := .outer }
  | receive {revents : List UInt16} {d : Datagram} {p : Packet} {clock : Clock} {client : Client}
      (hpc : r.pc = .polling) (hread : Poller.readable (revents.headD 0)) (hp : d.packet = .ok p)
      (hreceived : r.client.Received p clock client) :
      Effect numTotalPackets r (.poll (.ready revents) (some d) clock)
        { r with client := client, pc := .outer }
  | dies {revents : List UInt16} {incoming : Option Datagram} {clock : Clock}
      {why : Stop} (hpc : r.pc = .polling) (hread : Poller.readable (revents.headD 0))
      (hfails : r.client.receive incoming clock = .error why) :
      Effect numTotalPackets r (.poll (.ready revents) incoming clock) { r with pc := .stopped why }

/-- **Every step does what `Effect` says.** -/
theorem step_effect {n : UInt64} {r r' : ClientRun} {e : Event} (h : step n r e = some r') :
    Effect n r e r' := by
  obtain ⟨c, sent, pc⟩ := r
  cases pc with
  | outer =>
    cases e with
    | enter startSending =>
      obtain ⟨hnext, h⟩ := Option.ite_none_right_eq_some.mp h
      obtain rfl := Option.some.inj h
      exact .enter rfl hnext
    | finish =>
      obtain ⟨hnext, h⟩ := Option.ite_none_left_eq_some.mp h
      obtain rfl := Option.some.inj h
      exact .finish rfl hnext
    | _ => cases h
  | inner startSending =>
    cases e with
    | wait now =>
      obtain ⟨⟨hmay, hdue⟩, h⟩ := Option.ite_none_right_eq_some.mp h
      obtain rfl := Option.some.inj h
      exact .wait rfl hmay hdue
    | send now sentAt accepted =>
      obtain ⟨⟨hmay, hdue⟩, h⟩ := Option.ite_none_right_eq_some.mp h
      cases accepted with
      | true =>
        rw [sendTurn_accepted] at h
        obtain rfl := Option.some.inj h
        exact .send rfl hmay hdue
      | false =>
        rw [sendTurn_refused] at h
        obtain rfl := Option.some.inj h
        exact .refused rfl hmay hdue _
    | leave now =>
      obtain ⟨hmay, h⟩ := Option.ite_none_left_eq_some.mp h
      obtain rfl := Option.some.inj h
      exact .leave rfl hmay _
    | _ => cases h
  | polling =>
    cases e with
    | poll outcome incoming clock =>
      unfold step at h
      dsimp only at h
      rw [Client.poll_receiveAction] at h
      cases outcome with
      | error =>
        obtain rfl := Option.some.inj h
        exact .pollFails rfl _
      | timeout =>
        simp only [afterPoll] at h
        split at h
        · rename_i hclock
          obtain rfl := Option.some.inj h
          obtain rfl : clock = [] := hclock
          exact .timeout rfl
        · cases h
      | ready revents =>
        dsimp only at h
        -- an error on the descriptor comes before the callback
        by_cases herr : reportsError (revents.headD 0)
        · simp only [herr, if_true, afterPoll] at h
          split at h
          · rename_i hclock
            obtain rfl := Option.some.inj h
            obtain rfl : clock = [] := hclock
            exact .pollError rfl herr
          · cases h
        · rw [if_neg herr] at h
          by_cases hread : Poller.readable (revents.headD 0)
          · rw [if_pos hread] at h
            unfold Client.Env.receive at h
            cases hrecv : c.receive incoming clock with
            | error why =>
              -- a reading of the clock that is missing is no step, any other end stops the client
              rw [hrecv] at h
              simp only [Except.map] at h
              split at h
              · cases h
              · obtain rfl := Option.some.inj h
                exact .dies rfl hread hrecv
            | ok result =>
              obtain ⟨c', clock'⟩ := result
              obtain ⟨d, p, rfl, hp, hreceived⟩ := Client.receive_eq_ok hrecv
              rw [hrecv] at h
              simp only [Except.map, afterPoll] at h
              split at h
              · obtain rfl := Option.some.inj h
                exact .receive rfl hread hp hreceived
              · cases h
          · rw [if_neg hread] at h
            simp only [afterPoll] at h
            split at h
            · rename_i hclock
              obtain rfl := Option.some.inj h
              obtain rfl : clock = [] := hclock
              exact .idle rfl herr hread
            · cases h
    | _ => cases h
  | returned v => cases e <;> cases h
  | stopped why => cases e <;> cases h

/-- A step that comes back from the callback made the reception. -/
theorem receive_of_step {n : UInt64} {r r' : ClientRun} {revents : List UInt16}
    {incoming : Option Datagram} {clock : Clock}
    (hpc : r.pc = .polling) (hread : Poller.readable (revents.headD 0))
    (h : step n r (.poll (.ready revents) incoming clock) = some r') (hrunning : r'.pc = .outer) :
    r.client.receive incoming clock = .ok (r'.client, []) := by
  unfold step at h
  rw [hpc] at h
  dsimp only at h
  rw [Client.poll_receiveAction] at h
  dsimp only at h
  rw [if_neg (Poller.readable_not_error hread), if_pos hread] at h
  unfold Client.Env.receive at h
  cases hrecv : r.client.receive incoming clock with
  | error why =>
    rw [hrecv] at h
    simp only [Except.map] at h
    split at h
    · cases h
    · obtain rfl := Option.some.inj h
      cases hrunning
  | ok result =>
    obtain ⟨c', clock'⟩ := result
    rw [hrecv] at h
    simp only [Except.map, afterPoll] at h
    split at h
    · rename_i hclock
      obtain rfl := Option.some.inj h
      rw [show clock' = [] from hclock]
    · cases h

/-- A client that does something is in one of its loops. -/
theorem Effect.pc_cases {n : UInt64} {r r' : ClientRun} {e : Event} (h : Effect n r e r') :
    r.pc = .outer ∨ (∃ startSending, r.pc = .inner startSending) ∨ r.pc = .polling := by
  cases h with
  | enter hpc | finish hpc => exact Or.inl hpc
  | wait hpc | send hpc | refused hpc | leave hpc => exact Or.inr (Or.inl ⟨_, hpc⟩)
  | pollFails hpc | timeout hpc | pollError hpc | idle hpc | receive hpc | dies hpc =>
    exact Or.inr (Or.inr hpc)

theorem Effect.not_stopped {n : UInt64} {r r' : ClientRun} {e : Event} (h : Effect n r e r')
    (why : Stop) : r.pc ≠ .stopped why := by
  rcases h.pc_cases with hpc | ⟨_, hpc⟩ | hpc <;> rw [hpc] <;> simp

theorem Effect.not_returned {n : UInt64} {r r' : ClientRun} {e : Event} (h : Effect n r e r')
    (v : UInt32) : r.pc ≠ .returned v := by
  rcases h.pc_cases with hpc | ⟨_, hpc⟩ | hpc <;> rw [hpc] <;> simp

/-- A packet leaves inside the window. -/
theorem Effect.maySend_of_send {n : UInt64} {r r' : ClientRun} {now sentAt : UInt64}
    (h : Effect n r (.send now sentAt true) r') : maySend n r.client := by
  cases h with
  | send hpc hmay hdue => exact hmay

/-- The loops are left when there is nothing more to send. -/
theorem Effect.not_lt_of_finish {n : UInt64} {r r' : ClientRun} (h : Effect n r .finish r') :
    ¬ r.client.nextSeqnum < n := by
  cases h with
  | finish hpc hnext => exact hnext

/-- A datagram that is received and does not stop the client goes through the callback. -/
theorem Effect.of_received {n : UInt64} {r r' : ClientRun} {e : Event} (h : Effect n r e r')
    {d : Datagram} {q : Packet} (hd : e.received = some d) (hq : d.packet = .ok q)
    (hrunning : ∀ why, r'.pc ≠ .stopped why) : r.client.Received q e.clock r'.client := by
  cases h with
  | receive hpc hread hp hreceived =>
    rw [Event.received, if_pos hread, Option.some.injEq] at hd
    subst hd
    rw [hp, Except.ok.injEq] at hq
    exact hq ▸ hreceived
  | idle hpc herror hread =>
    rw [Event.received, if_neg hread] at hd
    cases hd
  | pollError hpc herror =>
    rw [Event.received, if_neg fun hread => Poller.readable_not_error hread herror] at hd
    cases hd
  | dies hpc hread hfails => exact absurd rfl (hrunning _)
  | _ => cases hd

/-- What was sent stays sent. -/
theorem Effect.sent_subset {n : UInt64} {r r' : ClientRun} {e : Event} (h : Effect n r e r') :
    r.sent ⊆ r'.sent := by
  cases h with
  | send hpc hmay hdue => exact List.subset_append_left _ _
  | _ => exact List.Subset.refl _

/-! ### Steps that are enabled -/

section Enabled

variable {n : UInt64} {r : ClientRun} {startSending : UInt64}

theorem step_enter (now : UInt64) (hpc : r.pc = .outer) (hnext : r.client.nextSeqnum < n) :
    step n r (.enter now) = some { r with pc := .inner now } := by
  unfold step
  rw [hpc]
  exact if_pos hnext

theorem step_send {now : UInt64} (sentAt : UInt64) (hpc : r.pc = .inner startSending)
    (hmay : maySend n r.client) (hdue : r.client.nextEventTime ≤ now) :
    step n r (.send now sentAt true) = some { r with
      client := { r.client with lastPacketSent := now, nextSeqnum := r.client.nextSeqnum + 1 }
      sent := r.sent ++ [request r.client sentAt] } := by
  unfold step
  rw [hpc]
  dsimp only
  rw [if_pos ⟨hmay, hdue⟩, sendTurn_accepted]

theorem step_leave (now : UInt64) (hpc : r.pc = .inner startSending) (hmay : ¬ maySend n r.client) :
    step n r (.leave now) = some { r with
      client := { r.client with
        utility := r.client.utility.sendingDuration (now - startSending) }
      pc := .polling } := by
  unfold step
  rw [hpc]
  exact if_neg hmay

theorem step_timeout (incoming : Option Datagram) (hpc : r.pc = .polling) :
    step n r (.poll .timeout incoming []) = some { r with
      client := { r.client with largestAck := r.client.nextSeqnum }
      pc := .outer } := by
  unfold step
  rw [hpc]
  dsimp only
  rw [Client.poll_receiveAction]
  rfl

end Enabled

end Step

/-! ### Reachable states -/

/-- The sequence number of the packet in a datagram. -/
def seqnum (d : Datagram) : Option ℕ := d.packet.toOption.map fun p => p.sequenceNumber.toNat

theorem seqnum_eq_some {d : Datagram} {i : ℕ} (h : seqnum d = some i) :
    ∃ p, d.packet = .ok p ∧ p.sequenceNumber.toNat = i := by
  unfold seqnum at h
  cases hd : d.packet with
  | error why => rw [hd] at h; cases h
  | ok p =>
    rw [hd] at h
    exact ⟨p, rfl, Option.some.inj h⟩

theorem next_lt_of_maySend {n : UInt64} {c : Client} (hmay : maySend n c) : c.nextSeqnum < n := by
  unfold maySend at hmay
  simp only [Bool.and_eq_true, decide_eq_true_eq] at hmay
  exact hmay.1

/-- The number after one that was not the last to be given out does not wrap. -/
theorem toNat_next_succ {n : UInt64} {c : Client} (hmay : maySend n c) :
    c.nextSeqnum.toNat < n.toNat ∧ (c.nextSeqnum + 1).toNat = c.nextSeqnum.toNat + 1 := by
  have hlt : c.nextSeqnum.toNat < n.toNat := UInt64.lt_iff_toNat_lt.mp (next_lt_of_maySend hmay)
  have hn := n.toNat_lt
  refine ⟨hlt, ?_⟩
  rw [UInt64.toNat_add, UInt64.toNat_one]
  omega

/-- The guard of the inner loop, in integers: the addition does not wrap. -/
theorem guard_of_maySend {n : UInt64} {c : Client} (hn : n.toNat ≤ 2 ^ 64 - 1000001)
    (hack : c.largestAck.toNat ≤ n.toNat) (hwindow : c.theWindow.toNat ≤ 1000000)
    (hmay : maySend n c) :
    c.largestAck.toNat + c.theWindow.toNat < 2 ^ 64 ∧
      c.nextSeqnum.toNat < c.largestAck.toNat + c.theWindow.toNat := by
  unfold maySend at hmay
  simp only [Bool.and_eq_true, decide_eq_true_eq] at hmay
  have hguard := UInt64.lt_iff_toNat_lt.mp hmay.2
  rw [UInt64.toNat_add] at hguard
  omega

/-- What holds in all states that `Client::run( numTotalPackets )` reaches, whatever comes from
the network. -/
structure Inv (numTotalPackets : UInt64) (r : ClientRun) : Prop where
  flowId : r.client.flowId = 1
  next_le : r.client.nextSeqnum.toNat ≤ numTotalPackets.toNat
  window_le : r.client.theWindow.toNat ≤ 1000000
  /-- The packets carry the sequence numbers from zero on, in this order. -/
  sent : r.sent.map seqnum = (List.range r.client.nextSeqnum.toNat).map some

namespace Inv

variable {n : UInt64} {r r' : ClientRun}

theorem length_sent (h : Inv n r) : r.sent.length = r.client.nextSeqnum.toNat := by
  have hlen := congrArg List.length h.sent
  rwa [List.length_map, List.length_map, List.length_range] at hlen

/-- A datagram that was sent decodes to a packet with one of the numbers given out. -/
theorem packet_of_mem (h : Inv n r) {d : Datagram} (hd : d ∈ r.sent) :
    ∃ p, d.packet = .ok p ∧ p.sequenceNumber.toNat < r.client.nextSeqnum.toNat := by
  have hmem : seqnum d ∈ (List.range r.client.nextSeqnum.toNat).map some := by
    rw [← h.sent]
    exact List.mem_map_of_mem hd
  obtain ⟨i, hi, hseq⟩ := List.mem_map.mp hmem
  obtain ⟨p, hp, hpi⟩ := seqnum_eq_some hseq.symm
  exact ⟨p, hp, hpi ▸ List.mem_range.mp hi⟩

/-- Each number given out is on a datagram that was sent. -/
theorem exists_sent (h : Inv n r) {i : ℕ} (hi : i < r.client.nextSeqnum.toNat) :
    ∃ d ∈ r.sent, ∃ p, d.packet = .ok p ∧ p.sequenceNumber.toNat = i := by
  have hmem : some i ∈ r.sent.map seqnum := by
    rw [h.sent]
    exact List.mem_map_of_mem (List.mem_range.mpr hi)
  obtain ⟨d, hd, hseq⟩ := List.mem_map.mp hmem
  exact ⟨d, hd, seqnum_eq_some hseq⟩

theorem start (n : UInt64) (addr : Address) (sock : Socket) (whiskers : WhiskerTree)
    (track : Bool) : Inv n (start addr sock whiskers track) := by
  obtain ⟨whiskers', theWindow, intersend, hwindow, hc⟩ := client_start addr sock whiskers track
  constructor
  case flowId =>
    rw [hc]
    rfl
  case next_le =>
    rw [hc]
    exact Nat.zero_le _
  case window_le =>
    rw [hc]
    exact hwindow
  case sent =>
    rw [sent_start, hc]
    rfl

variable [Platform]

/-- Every step keeps the invariant. -/
theorem step (h : Inv n r) {e : Event} (heff : Effect n r e r') : Inv n r' := by
  cases heff with
  | @send now sentAt startSending hpc hmay hdue =>
    obtain ⟨hlt, hsucc⟩ := toNat_next_succ hmay
    have hseq : seqnum (request r.client sentAt) = some r.client.nextSeqnum.toNat := by
      rw [seqnum, packet_request]
      rfl
    refine ⟨h.flowId, ?_, h.window_le, ?_⟩
    · -- the guard leaves room for one more
      rw [hsucc]
      exact hlt
    · rw [hsucc, List.map_append, h.sent, List.range_succ, List.map_append, List.map_singleton,
        List.map_singleton, hseq]
  | receive hpc hread hp hreceived =>
    refine ⟨?_, ?_, hreceived.window.window_le, ?_⟩
    · rw [hreceived.flowId, h.flowId]
    · rw [hreceived.nextSeqnum]
      exact h.next_le
    · rw [hreceived.nextSeqnum]
      exact h.sent
  | _ => exact ⟨h.flowId, h.next_le, h.window_le, h.sent⟩

/-- **What holds in all reachable states.** -/
theorem exec {addr : Address} {sock : Socket} {whiskers : WhiskerTree} {track : Bool}
    {es : List Event}
    (hrun : Transition.exec (ClientRun.step n) (ClientRun.start addr sock whiskers track) es
      = some r) :
    Inv n r := by
  refine Transition.exec_invariant (start n addr sock whiskers track) ?_ hrun
  intro _ _ _ ih hstep
  exact ih.step (step_effect hstep)

end Inv

end ClientRun

end SendReceive
