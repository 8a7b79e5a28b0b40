import SendReceive.ClientRun
import SendReceive.Server

/-!
# The client, the server and the network

One client runs against the server over a network that may lose, duplicate, delay and reorder
datagrams, but neither invents nor alters any: what was sent once can be delivered any number of
times, or never.

## Main definitions

* `System`, `System.Event`, `System.step` — the states, the events, the steps.
* `System.Inv` — what holds in all reachable states.

## Main results

* `System.step_effect`, `System.Inv.exec` — what a step does, and what it keeps.
* `System.Inv.reply` — **what is on the way to the client**: acknowledgements whose flow id and
  sequence number are zero.
* `System.send_window_discipline` — **the send window over whole runs**.
-/

namespace SendReceive

/-- The client, which keeps what it sent, and what the server sent. -/
structure System where
  run : ClientRun
  replies : List Datagram

namespace System

open Transition (exec)

/-- What happens in the system. -/
inductive Event where
  /-- An event of the client. -/
  | client (e : ClientRun.Event)
  /-- A round of the server, with its clock readings. -/
  | serve (request : Datagram) (printedAt sentAt : UInt64)
  deriving DecidableEq, Repr

/-- The state in which `Client::run` comes to its loops. -/
def start (addr : Address) (sock : Socket) (whiskers : WhiskerTree) (track : Bool) : System :=
  ⟨.start addr sock whiskers track, []⟩

/-- The client was not stopped. -/
def Running (s : System) : Prop := ∀ why, s.run.pc ≠ .stopped why

section Step

variable [Platform]

/-- One step of the system, where `server` is the socket of the server.  Each program receives
what the other one sent. -/
def step (numTotalPackets : UInt64) (server : Socket) (s : System) : Event → Option System
  | .client e =>
    if ∀ d ∈ e.received, d ∈ s.replies then
      (s.run.step numTotalPackets e).map fun r => { s with run := r }
    else none
  | .serve request printedAt sentAt =>
    if request ∈ s.run.sent then
      match Server.loopBody server (some request) true [printedAt, sentAt] with
      | .error _ => none
      | .ok (reply, _) => some { s with replies := s.replies ++ [reply] }
    else none

/-- What each step can do. -/
inductive Effect (numTotalPackets : UInt64) (server : Socket) (s : System) : Event → System → Prop
  | client {e : ClientRun.Event} {r : ClientRun} (hreceived : ∀ d ∈ e.received, d ∈ s.replies)
      (heff : ClientRun.Effect numTotalPackets s.run e r) :
      Effect numTotalPackets server s (.client e) { s with run := r }
  | serve {request : Datagram} {p : Packet} {printedAt sentAt : UInt64} (now : UInt64)
      (hmem : request ∈ s.run.sent) (hp : request.packet = .ok p) :
      Effect numTotalPackets server s (.serve request printedAt sentAt)
        { s with replies := s.replies ++ [Server.answer server p now] }

variable {n : UInt64} {server : Socket}

/-- **Every step does what `Effect` says.** -/
theorem step_effect {s s' : System} {e : Event} (h : step n server s e = some s') :
    Effect n server s e s' := by
  cases e with
  | client e =>
    simp only [step] at h
    split at h
    · rename_i hreceived
      obtain ⟨r, hstep, rfl⟩ := Option.map_eq_some_iff.mp h
      exact .client hreceived (ClientRun.step_effect hstep)
    · cases h
  | serve request printedAt sentAt =>
    simp only [step] at h
    split at h
    · rename_i hmem
      cases hloop : Server.loopBody server (some request) true [printedAt, sentAt] with
      | error why => rw [hloop] at h; cases h
      | ok r =>
        obtain ⟨reply, clock⟩ := r
        rw [hloop] at h
        obtain rfl := Option.some.inj h
        obtain ⟨p, now, hp, rfl⟩ := Server.loopBody_eq_ok hloop
        exact .serve now hmem hp
    · cases h

/-- A step of the client, for what the server sent. -/
theorem Effect.of_client {s s' : System} {e : ClientRun.Event}
    (h : Effect n server s (.client e) s') :
    (∀ d ∈ e.received, d ∈ s.replies) ∧ ClientRun.Effect n s.run e s'.run := by
  cases h with
  | client hreceived heff => exact ⟨hreceived, heff⟩

/-- A client that runs after a step ran before it. -/
theorem Effect.running {s s' : System} {e : Event} (h : Effect n server s e s')
    (hrunning : s'.Running) : s.Running := by
  cases h with
  | client hreceived heff => exact heff.not_stopped
  | serve now hmem hp => exact hrunning

end Step

/-! ### Reachable states -/

/-- What holds in all reachable states of the system. -/
structure Inv [Platform] (numTotalPackets : UInt64) (server : Socket) (s : System) : Prop where
  run : ClientRun.Inv numTotalPackets s.run
  ack_le : s.run.client.largestAck.toNat ≤ s.run.client.nextSeqnum.toNat
  memory : s.run.client.memory = .init
  replies : ∀ d ∈ s.replies, ∃ request ∈ s.run.sent, ∃ p now, request.packet = .ok p ∧
    d = Server.answer server p now

namespace Inv

variable [Platform] {n : UInt64} {server : Socket} {s s' : System}

/-- **What is on the way to the client.**  The acknowledgement of a packet that was sent has its
number plus one modulo `2 ^ 16`, and its own flow id and sequence number are zero. -/
theorem reply (h : Inv n server s) {d : Datagram} (hd : d ∈ s.replies) :
    ∃ p q, (∃ now, d = Server.answer server p now) ∧ d.packet = .ok q ∧
      p.sequenceNumber.toNat < s.run.client.nextSeqnum.toNat ∧ q.flowId = 0 ∧
      q.sequenceNumber = 0 ∧ q.ackNumber.toNat = (p.sequenceNumber.toNat + 1) % 65536 := by
  obtain ⟨request, hrequest, p, now, hp, rfl⟩ := h.replies d hd
  obtain ⟨p', hp', hlt⟩ := h.run.packet_of_mem hrequest
  rw [hp, Except.ok.injEq] at hp'
  subst hp'
  exact ⟨p, _, ⟨now, rfl⟩, Server.packet_answer server p now, hlt, rfl, rfl,
    Server.reply_ackNumber p⟩

theorem start (n : UInt64) (server : Socket) (addr : Address) (sock : Socket)
    (whiskers : WhiskerTree) (track : Bool) :
    Inv n server (start addr sock whiskers track) := by
  have hrun := ClientRun.Inv.start n addr sock whiskers track
  obtain ⟨whiskers', theWindow, intersend, -, hc⟩ :=
    ClientRun.client_start addr sock whiskers track
  refine ⟨hrun, ?_, ?_, fun d hd => by cases hd⟩
  · rw [System.start, hc]
    exact Nat.le_refl 0
  · rw [System.start, hc]
    rfl

/-- The client's part of the invariant, for what is on the way to it. -/
theorem client_step (h : Inv n server s) {e : ClientRun.Event} {r : ClientRun}
    (hreceived : ∀ d ∈ e.received, d ∈ s.replies) (heff : ClientRun.Effect n s.run e r) :
    r.client.largestAck.toNat ≤ r.client.nextSeqnum.toNat ∧ r.client.memory = .init := by
  cases heff with
  | send hpc hmay hdue =>
    obtain ⟨-, hsucc⟩ := ClientRun.toNat_next_succ hmay
    refine ⟨?_, h.memory⟩
    rw [hsucc]
    exact le_trans h.ack_le (Nat.le_succ _)
  | timeout hpc => exact ⟨Nat.le_refl _, h.memory⟩
  | @receive revents d q clock client hpc hread hq hc =>
    have hd : d ∈ s.replies := hreceived d (by rw [ClientRun.Event.received, if_pos hread]; rfl)
    obtain ⟨p, q', -, hq', -, hflow, hseq, -⟩ := h.reply hd
    rw [hq, Except.ok.injEq] at hq'
    subst hq'
    refine ⟨?_, ?_⟩
    · rw [hc.largestAck, hc.nextSeqnum, hseq, zero_max]
      exact h.ack_le
    · -- the client waits for packets of flow 1
      obtain ⟨rest, hmemory⟩ := hc.memory
      have hne : q.flowId ≠ s.run.client.flowId.toUInt32.toUInt64 := by
        rw [hflow, h.run.flowId]
        decide
      rw [MemoryOf.packetReceived_of_flowId_ne hne, Except.ok.injEq, Prod.mk.injEq] at hmemory
      rw [← SenderMemory.toSender_inj.mp hmemory.1]
      exact h.memory
  | _ => exact ⟨h.ack_le, h.memory⟩

/-- Every step keeps the invariant. -/
theorem step (h : Inv n server s) {e : Event} (heff : Effect n server s e s') : Inv n server s' := by
  cases heff with
  | @client e r hreceived heff =>
    obtain ⟨hack, hmemory⟩ := h.client_step hreceived heff
    refine ⟨h.run.step heff, hack, hmemory, fun d hd => ?_⟩
    obtain ⟨request, hrequest, hanswer⟩ := h.replies d hd
    exact ⟨request, heff.sent_subset hrequest, hanswer⟩
  | @serve request p printedAt sentAt now hmem hp =>
    refine ⟨h.run, h.ack_le, h.memory, fun d hd => ?_⟩
    rcases List.mem_append.mp hd with hold | hnew
    · exact h.replies d hold
    · exact ⟨request, hmem, p, now, hp, List.mem_singleton.mp hnew⟩

/-- **What holds in all reachable states.** -/
theorem exec {addr : Address} {sock : Socket} {whiskers : WhiskerTree} {track : Bool}
    {es : List Event}
    (hrun : Transition.exec (System.step n server) (System.start addr sock whiskers track) es
      = some s) :
    Inv n server s := by
  refine Transition.exec_invariant (start n server addr sock whiskers track) ?_ hrun
  intro _ _ _ ih hstep
  exact ih.step (step_effect hstep)

end Inv

/-! ### The send window -/

/-- A round of the client's poller. -/
def Event.isPoll : Event → Bool
  | .client e => e.isPoll
  | .serve _ _ _ => false

section Window

variable [Platform] {n : UInt64} {server : Socket}

/-- Between two polls the client's acknowledgement and window stay what they were, and what it
sends lies in the window. -/
structure Quiet (s s' : System) : Prop where
  largestAck : s'.run.client.largestAck = s.run.client.largestAck
  theWindow : s'.run.client.theWindow = s.run.client.theWindow
  next_le : s'.run.client.nextSeqnum.toNat
    ≤ s.run.client.nextSeqnum.toNat + s.run.client.theWindow.toNat

theorem Quiet.step {s s' s'' : System} {e : Event} (hn : n.toNat ≤ 2 ^ 64 - 1000001)
    (hs : Inv n server s) (hs' : Inv n server s') (h : Quiet s s')
    (heff : Effect n server s' e s'') (hquiet : ¬ e.isPoll) : Quiet s s'' := by
  cases heff with
  | serve now hmem hp => exact ⟨h.largestAck, h.theWindow, h.next_le⟩
  | client hreceived heff =>
    cases heff with
    | send hpc hmay hdue =>
      obtain ⟨-, hsucc⟩ := ClientRun.toNat_next_succ hmay
      have hack : s'.run.client.largestAck.toNat ≤ n.toNat := le_trans hs'.ack_le hs'.run.next_le
      obtain ⟨-, hguard⟩ := ClientRun.guard_of_maySend hn hack hs'.run.window_le hmay
      have hle := hs.ack_le
      -- the guard is that of the state after the poll
      rw [h.largestAck, h.theWindow] at hguard
      refine ⟨h.largestAck, h.theWindow, ?_⟩
      rw [hsucc]
      omega
    -- the other steps outside the poller send nothing
    | enter | finish | wait | refused | leave => exact ⟨h.largestAck, h.theWindow, h.next_le⟩
    | pollFails | timeout | pollError | idle | receive | dies => exact absurd rfl hquiet

/-- **What leaves between two polls lies in the window.** -/
theorem Quiet.exec {s s' : System} {es : List Event} (hn : n.toNat ≤ 2 ^ 64 - 1000001)
    (hs : Inv n server s) (hquiet : ∀ e ∈ es, ¬ e.isPoll)
    (hrun : exec (System.step n server) s es = some s') : Quiet s s' ∧ Inv n server s' := by
  refine Transition.exec_invariant_of (I := fun s' => Quiet s s' ∧ Inv n server s')
    ⟨⟨rfl, rfl, Nat.le_add_right _ _⟩, hs⟩ ?_ hrun hquiet
  rintro m e m' he ⟨hq, hm⟩ hstep
  have heff := step_effect hstep
  exact ⟨hq.step hn hs hm heff he, hm.step heff⟩

/-- **The send window over whole runs.**  The packets carry the numbers `0, 1, 2, …` in this order,
each exactly once; no acknowledgement runs ahead of what was sent; each packet is sent only
inside a window of at most a million packets whose end does not wrap; at most a window of packets
leaves between two polls; and the sending loop is left normally only after all were sent. -/
theorem send_window_discipline {addr : Address} {sock : Socket} {whiskers : WhiskerTree}
    {track : Bool} {es : List Event} {s : System} (hn : n.toNat ≤ 2 ^ 64 - 1000001)
    (hrun : exec (step n server) (start addr sock whiskers track) es = some s) :
    s.run.sent.map ClientRun.seqnum = (List.range s.run.sent.length).map some ∧
    (s.run.client.largestAck.toNat ≤ s.run.client.nextSeqnum.toNat ∧
      s.run.client.nextSeqnum.toNat ≤ n.toNat) ∧
    (∀ now sentAt s', step n server s (.client (.send now sentAt true)) = some s' →
      s.run.client.nextSeqnum.toNat - s.run.client.largestAck.toNat < s.run.client.theWindow.toNat ∧
      s.run.client.theWindow.toNat ≤ 1000000 ∧
      s.run.client.largestAck.toNat + s.run.client.theWindow.toNat < 2 ^ 64) ∧
    (∀ es' s', (∀ e ∈ es', ¬ e.isPoll) → exec (step n server) s es' = some s' →
      s'.run.sent.length ≤ s.run.sent.length + s.run.client.theWindow.toNat) ∧
    (∀ s', step n server s (.client .finish) = some s' → s.run.sent.length = n.toNat) := by
  have hinv := Inv.exec hrun
  have hlen := hinv.run.length_sent
  have hack : s.run.client.largestAck.toNat ≤ n.toNat := le_trans hinv.ack_le hinv.run.next_le
  refine ⟨?_, ⟨hinv.ack_le, hinv.run.next_le⟩, ?_, ?_, ?_⟩
  · rw [hlen]
    exact hinv.run.sent
  · intro now sentAt s' hstep
    have hmay := (step_effect hstep).of_client.2.maySend_of_send
    obtain ⟨hwrap, hguard⟩ := ClientRun.guard_of_maySend hn hack hinv.run.window_le hmay
    have hle := hinv.ack_le
    exact ⟨by omega, hinv.run.window_le, hwrap⟩
  · intro es' s' hquiet hrun'
    obtain ⟨hq, hinv'⟩ := Quiet.exec hn hinv hquiet hrun'
    rw [hlen, hinv'.run.length_sent]
    exact hq.next_le
  · intro s' hstep
    have hnext := (step_effect hstep).of_client.2.not_lt_of_finish
    have hle := hinv.run.next_le
    rw [UInt64.lt_iff_toNat_lt] at hnext
    omega

end Window

/-- One packet is sent, answered and acknowledged. -/
theorem send_window_discipline_of_one : letI := gcc48
    ∃ (es : List Event) (s : System),
      exec (step 1 ⟨⟨1, 9⟩⟩) (start ⟨1, 9⟩ ⟨⟨2, 8⟩⟩ .init true) es = some s ∧
      s.run.sent.length = 1 ∧ s.replies.length = 1 ∧
      s.run.sent.map ClientRun.seqnum = (List.range s.run.sent.length).map some := by
  let _ := gcc48
  let p : Packet := (Packet.make ⟨1, 9⟩ 0 0 0 Client.helloPayload).setSendTimestamp 5
  let request : Datagram := ⟨⟨2, 8⟩, ⟨1, 9⟩, p.str⟩
  let es : List Event := [.client (.enter 1), .client (.send 5 5 true), .serve request 6 7,
    .client (.leave 8),
    .client (.poll (.ready [pollIn]) (some (Server.answer ⟨⟨1, 9⟩⟩ { p with addr_ := ⟨2, 8⟩ } 7))
      [9, 10]),
    .client .finish]
  have hexec : (exec (step 1 ⟨⟨1, 9⟩⟩) (start ⟨1, 9⟩ ⟨⟨2, 8⟩⟩ .init true) es).map
      (fun s => (s.run.sent.length, s.replies.length)) = some (1, 1) := by
    decide +kernel
  obtain ⟨s, hrun, hs⟩ := Option.map_eq_some_iff.mp hexec
  obtain ⟨hsent, hreplies⟩ := Prod.mk.inj hs
  exact ⟨es, s, hrun, hsent, hreplies, (send_window_discipline (by decide) hrun).1⟩

end System

end SendReceive
