import SendReceive.System

/-!
# Timestamps that come back

A packet is stamped with the time when it leaves the client, the server copies the stamp into
the field `echo_reply_timestamp` of its acknowledgement, and the client subtracts it from the time
at which the acknowledgement comes.  The acknowledgement gets a stamp of the server's own clock,
which nobody looks at.

The network invents nothing, so what comes back was written by the client in an earlier step,
however late, reordered or repeated it comes; when the client's clock does not run backwards no
round-trip time is negative.

## Main definitions

* `System.clientReadings` — the readings of the client's clock in a run.
* `System.Stamped` — a datagram that `Socket::send` stamped in a run.
* `Packet.RoundTrip` — what the callback computes with a packet makes sense.

## Main results

* `System.stamped_of_mem` — what was sent was stamped.
* `System.echoes_genuine` — **the timestamps that come back are genuine**.
-/

namespace SendReceive

open Transition (exec)

/-! ### The readings of the client's clock -/

/-- The readings of the clock in an event, in their order. -/
def ClientRun.Event.readings : ClientRun.Event → Clock
  | .enter startSending => [startSending]
  | .finish => []
  | .wait now => [now]
  | .send now sentAt _ => [now, sentAt]
  | .leave now => [now]
  | .poll _ _ clock => clock

theorem ClientRun.Event.readings_of_received {e : ClientRun.Event} {d : Datagram}
    (h : e.received = some d) : e.readings = e.clock := by
  cases e with
  | poll outcome incoming clock => rfl
  | _ => cases h

namespace Packet

/-- What the callback computes with a packet, from readings of the clock: the assertion of
`Utility::packet_received` does not fail, the unsigned subtraction in `Client::update_timeout` does
not wrap, and the round-trip time in `Memory::packet_received` is not negative. -/
structure RoundTrip (q : Packet) (clock : Clock) : Prop where
  asserted : ∀ (u : Utility) (rest : Clock), rest <:+ clock →
    u.packetReceived q rest ≠ .error .assertFailed
  no_wrap : ∀ now ∈ clock,
    ((now - q.echoReplyTimestamp).toNat : ℤ) = now.toNat - q.echoReplyTimestamp.toNat
  rtt_nonneg : ∀ now ∈ clock, (0 : DataType) ≤ now.toNat - q.echoReplyTimestamp.toNat

/-- A timestamp before all readings. -/
theorem roundTrip_of_le {q : Packet} {clock : Clock}
    (h : ∀ now ∈ clock, q.echoReplyTimestamp ≤ now) : RoundTrip q clock where
  asserted u rest hrest := by
    cases rest with
    | nil => exact fun hfails => by cases hfails
    | cons now rest =>
      have hle : q.echoReplyTimestamp ≤ now := h now (hrest.subset List.mem_cons_self)
      rw [Utility.packetReceived, timestamp_cons, ok_bind]
      dsimp only
      rw [if_pos hle]
      exact fun hfails => by cases hfails
  no_wrap now hnow := by
    have hle := UInt64.le_iff_toNat_le.mp (h now hnow)
    rw [UInt64.toNat_sub_of_le _ _ (h now hnow)]
    exact Int.ofNat_sub hle
  rtt_nonneg now hnow := by
    have hle := UInt64.le_iff_toNat_le.mp (h now hnow)
    exact sub_nonneg.mpr (by exact_mod_cast hle)

end Packet

namespace System

/-- The readings of the client's clock in a run.  Those of the server's are of no account. -/
def clientReadings (es : List Event) : Clock :=
  es.flatMap fun
    | .client e => e.readings
    | .serve _ _ _ => []

theorem clientReadings_append (es es' : List Event) :
    clientReadings (es ++ es') = clientReadings es ++ clientReadings es' :=
  List.flatMap_append

theorem clientReadings_cons (e : ClientRun.Event) (es : List Event) :
    clientReadings (.client e :: es) = e.readings ++ clientReadings es :=
  List.flatMap_cons

section Stamps

variable [Platform] {n : UInt64} {server : Socket} {s₀ s : System} {es : List Event}

/-- In a run from `s₀`, `Socket::send` stamped a packet with the time `sentAt`, the datagram `d`
left, and it decodes to a packet with this stamp. -/
def Stamped (n : UInt64) (server : Socket) (s₀ : System) (es : List Event) (d : Datagram)
    (sentAt : UInt64) : Prop :=
  ∃ (earlier : List Event) (now : UInt64) (later : List Event) (s : System) (sent p : Packet),
    es = earlier ++ .client (.send now sentAt true) :: later ∧
    exec (step n server) s₀ earlier = some s ∧
    s.run.client.sock.send s.run.client.sendPacket true [sentAt] = .ok (sent, d, []) ∧
    d.packet = .ok p ∧ p.sendTimestamp = sentAt

/-- What was stamped stays stamped. -/
theorem Stamped.append {d : Datagram} {sentAt : UInt64} (h : Stamped n server s₀ es d sentAt)
    (es' : List Event) : Stamped n server s₀ (es ++ es') d sentAt := by
  obtain ⟨earlier, now, later, s, sent, p, rfl, hrun, hsend, hp, hstamp⟩ := h
  refine ⟨earlier, now, later ++ es', s, sent, p, ?_, hrun, hsend, hp, hstamp⟩
  rw [List.append_assoc, List.cons_append]

/-- The packet that a turn of the inner loop sends is stamped. -/
theorem stamped_request {earlier : List Event} (hrun : exec (step n server) s₀ earlier = some s)
    (now sentAt : UInt64) :
    Stamped n server s₀ (earlier ++ [.client (.send now sentAt true)])
      (ClientRun.request s.run.client sentAt) sentAt :=
  ⟨earlier, now, [], s, _, _, rfl, hrun, rfl, ClientRun.packet_request s.run.client sentAt, rfl⟩

/-- A datagram that a step sends leaves in a turn of the inner loop. -/
theorem Effect.mem_sent {s' : System} {e : Event} (h : Effect n server s e s') {d : Datagram}
    (hd : d ∈ s'.run.sent) :
    d ∈ s.run.sent ∨ ∃ now sentAt, e = .client (.send now sentAt true) ∧
      d = ClientRun.request s.run.client sentAt := by
  cases h with
  | serve now hmem hp => exact Or.inl hd
  | client hreceived heff =>
    cases heff with
    | send hpc hmay hdue =>
      rcases List.mem_append.mp hd with hold | hnew
      · exact Or.inl hold
      · exact Or.inr ⟨_, _, rfl, List.mem_singleton.mp hnew⟩
    | _ => exact Or.inl hd

/-- **What was sent was stamped.** -/
theorem stamped_of_mem (hstart : s₀.run.sent = []) (hrun : exec (step n server) s₀ es = some s) :
    ∀ d ∈ s.run.sent, ∃ sentAt, Stamped n server s₀ es d sentAt := by
  refine Transition.exec_induct
    (P := fun es s => ∀ d ∈ s.run.sent, ∃ sentAt, Stamped n server s₀ es d sentAt) ?_ ?_ es s hrun
  · intro d hd
    rw [hstart] at hd
    cases hd
  · intro es s e s' hes ih hstep d hd
    rcases (step_effect hstep).mem_sent hd with hold | ⟨now, sentAt, rfl, rfl⟩
    · obtain ⟨sentAt, hstamped⟩ := ih d hold
      exact ⟨sentAt, hstamped.append _⟩
    · exact ⟨sentAt, stamped_request hes now sentAt⟩

/-- The stamp is a reading of the client's clock. -/
theorem Stamped.mem_clientReadings {d : Datagram} {sentAt : UInt64}
    (h : Stamped n server s₀ es d sentAt) : sentAt ∈ clientReadings es := by
  obtain ⟨earlier, now, later, s, sent, p, rfl, -⟩ := h
  rw [clientReadings_append, clientReadings_cons]
  refine List.mem_append_right _ (List.mem_append_left _ ?_)
  exact List.mem_cons_of_mem _ List.mem_cons_self

/-- What is on the way to the client echoes the stamp of something it sent. -/
theorem exists_stamped_of_reply {addr : Address} {sock : Socket} {whiskers : WhiskerTree}
    {track : Bool}
    (hrun : exec (step n server) (start addr sock whiskers track) es = some s) {d : Datagram}
    (hd : d ∈ s.replies) :
    ∃ request q, Stamped n server (start addr sock whiskers track) es request
      q.echoReplyTimestamp ∧ d.packet = .ok q := by
  obtain ⟨request, hrequest, p, now, hp, rfl⟩ := (Inv.exec hrun).replies d hd
  have hstart : (start addr sock whiskers track).run.sent = [] :=
    ClientRun.sent_start addr sock whiskers track
  obtain ⟨sentAt, hstamped⟩ := stamped_of_mem hstart hrun request hrequest
  refine ⟨request, _, ?_, Server.packet_answer server p now⟩
  -- the server echoes the stamp of the packet it decoded
  obtain ⟨earlier, now', later, s', sent, p', hes, hearlier, hsend, hp', hstamp⟩ := hstamped
  obtain rfl : p = p' := Except.ok.inj (hp.symm.trans hp')
  show Stamped n server _ es request p.sendTimestamp
  rw [hstamp]
  exact ⟨earlier, now', later, s', sent, p, hes, hearlier, hsend, hp, hstamp⟩

/-- **The timestamps that come back are genuine.**  In every run whose client's clock does not run
backwards, what the client receives decodes; it echoes the stamp that `Socket::send` put into a
packet that the client sent earlier; and so the round-trip time makes sense wherever the callback
computes it. -/
theorem echoes_genuine {addr : Address} {sock : Socket} {whiskers : WhiskerTree} {track : Bool}
    (hrun : exec (step n server) (start addr sock whiskers track) es = some s)
    (hclock : (clientReadings es).Pairwise (· ≤ ·)) {before after : List Event}
    {e : ClientRun.Event} (hes : es = before ++ .client e :: after) {d : Datagram}
    (hd : e.received = some d) :
    ∃ q, d.packet = .ok q ∧
      (∃ request, Stamped n server (start addr sock whiskers track) before request
        q.echoReplyTimestamp) ∧
      q.RoundTrip e.clock := by
  subst hes
  obtain ⟨m, hbefore, hrest⟩ := Transition.exec_append_eq_some.mp hrun
  rw [Transition.exec_cons] at hrest
  obtain ⟨m', hstep, -⟩ := Option.bind_eq_some_iff.mp hrest
  have hmem : d ∈ m.replies := by
    apply (step_effect hstep).of_client.1 d
    rw [hd]
    rfl
  obtain ⟨request, q, hstamped, hq⟩ := exists_stamped_of_reply hbefore hmem
  refine ⟨q, hq, ⟨request, hstamped⟩, Packet.roundTrip_of_le fun now hnow => ?_⟩
  -- the stamp is a reading before those of the callback
  rw [clientReadings_append, clientReadings_cons] at hclock
  apply (List.pairwise_append.mp hclock).2.2 _ hstamped.mem_clientReadings
  rw [ClientRun.Event.readings_of_received hd]
  exact List.mem_append_left _ hnow

end Stamps

/-- A packet that is stamped at 5 and answered by a server whose clock is far behind. -/
theorem echoes_genuine_of_one : letI := gcc48
    ∃ (before : List Event) (e : ClientRun.Event) (s : System) (d : Datagram) (q : Packet),
      exec (step 1 ⟨⟨1, 9⟩⟩) (start ⟨1, 9⟩ ⟨⟨2, 8⟩⟩ .init true) (before ++ [.client e]) = some s ∧
      e.received = some d ∧ d.packet = .ok q ∧ q.RoundTrip e.clock ∧
      ∃ request, Stamped 1 ⟨⟨1, 9⟩⟩ (start ⟨1, 9⟩ ⟨⟨2, 8⟩⟩ .init true) before request
        q.echoReplyTimestamp := by
  let _ := gcc48
  let p : Packet := (Packet.make ⟨1, 9⟩ 0 0 0 Client.helloPayload).setSendTimestamp 5
  let before : List Event := [.client (.enter 1), .client (.send 5 5 true),
    .serve ⟨⟨2, 8⟩, ⟨1, 9⟩, p.str⟩ 2 3, .client (.leave 8)]
  let d : Datagram := Server.answer ⟨⟨1, 9⟩⟩ { p with addr_ := ⟨2, 8⟩ } 3
  let e : ClientRun.Event := .poll (.ready [pollIn]) (some d) [9, 10]
  have hexec : (exec (step 1 ⟨⟨1, 9⟩⟩) (start ⟨1, 9⟩ ⟨⟨2, 8⟩⟩ .init true)
      (before ++ [.client e])).map (fun s => s.run.pc) = some .outer := by
    decide +kernel
  have hclock : (clientReadings (before ++ [.client e])).Pairwise (· ≤ ·) := by decide +kernel
  have hd : e.received = some d := by decide +kernel
  obtain ⟨s, hrun, -⟩ := Option.map_eq_some_iff.mp hexec
  obtain ⟨q, hq, hstamped, htrip⟩ := echoes_genuine hrun hclock rfl hd
  exact ⟨before, e, s, d, q, hrun, hd, hq, htrip, hstamped⟩

end System

end SendReceive
