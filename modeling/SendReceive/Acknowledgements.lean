import SendReceive.System
import Mathlib.Order.Bounds.Defs

/-!
# What the acknowledgements do

The server puts the number of an acknowledgement into the field `ack_number`, through a 16-bit
integer, and leaves the flow id and the sequence number at zero.  The client takes the *sequence
number* of what it receives for the acknowledgement, and its memory looks at packets of flow 1
only.  So the acknowledgements neither open the send window nor reach the memory, and from the
packet with number 65535 on they do not say which packet they acknowledge.

## Main definitions

* `System.history` — what a run shows from outside: the packets sent, the number of them at the
  last timeout, and the acknowledgement numbers that came.
* `System.Reception` — the client processes an acknowledgement in a run.

## Main results

* `Server.ack_exact_iff` — **the number of an acknowledgement is exact below `2 ^ 16` only**.
* `System.ack_progress_iff` — **`largest_ack` follows the timeouts only**.
* `System.feeds_memory_iff` — **no acknowledgement reaches the memory**.
-/

namespace SendReceive

open Transition (exec)

namespace Server

/-! ### The number of an acknowledgement -/

section Exact

variable [Platform]

/-- What the server answers to a datagram that decodes. -/
theorem loopBody_of_packet (server : Socket) {d : Datagram} {p : Packet} (hp : d.packet = .ok p)
    (hmtu : d.bytes.length ≤ receiveMtu) (printedAt sentAt : UInt64) :
    ∃ reply q, loopBody server (some d) true [printedAt, sentAt] = .ok (reply, []) ∧
      reply.destination = d.source ∧ reply.packet = .ok q ∧
      q.echoReplyTimestamp = p.sendTimestamp ∧
      q.ackNumber.toNat = (p.sequenceNumber.toNat + 1) % 65536 := by
  have hrecv : Socket.recv (some d) = .ok p := by
    rw [Socket.recv_of_le hmtu]
    exact hp
  have haddr : p.addr = d.source := (Packet.str_of_ofString hp).2
  exact ⟨answer server p sentAt, _, loopBody_of_recv hrecv printedAt sentAt [], haddr,
    packet_answer server p sentAt, rfl, reply_ackNumber p⟩

/-- Below `2 ^ 16` the numbers of acknowledgements tell the packets apart. -/
theorem reply_ackNumber_ne {p₁ p₂ : Packet} (h₁ : p₁.sequenceNumber.toNat < 65536)
    (h₂ : p₂.sequenceNumber.toNat < 65536) (hne : p₁.sequenceNumber ≠ p₂.sequenceNumber) :
    (reply p₁).ackNumber ≠ (reply p₂).ackNumber := by
  intro heq
  have hnum := congrArg UInt64.toNat heq
  rw [reply_ackNumber, reply_ackNumber] at hnum
  exact hne (UInt64.toNat_inj.mp (by omega))

/-- **The number of an acknowledgement is exact below `2 ^ 16` only.**  The answer to a datagram
that decodes goes to its source and echoes the timestamp of the packet; its number is the sequence
number plus one if and only if this is less than `2 ^ 16`.  In a run of the client the packets that
leave have different acknowledgement numbers if and only if there are at most `2 ^ 16` of them. -/
theorem ack_exact_iff :
    (∀ (server : Socket) (d : Datagram) (p : Packet) (printedAt sentAt : UInt64),
      d.packet = .ok p → d.bytes.length ≤ receiveMtu → p.sequenceNumber.toNat < 2 ^ 64 - 1 →
      ∃ reply q, loopBody server (some d) true [printedAt, sentAt] = .ok (reply, []) ∧
        reply.destination = d.source ∧ reply.packet = .ok q ∧
        q.echoReplyTimestamp = p.sendTimestamp ∧
        (q.ackNumber.toNat = p.sequenceNumber.toNat + 1 ↔ p.sequenceNumber.toNat + 1 < 65536)) ∧
    (∀ (n : UInt64) (addr : Address) (sock : Socket) (whiskers : WhiskerTree) (track : Bool)
      (es : List ClientRun.Event) (r : ClientRun),
      exec (ClientRun.step n) (ClientRun.start addr sock whiskers track) es = some r →
      ((∀ d₁ ∈ r.sent, ∀ d₂ ∈ r.sent, ∀ p₁ p₂, d₁.packet = .ok p₁ → d₂.packet = .ok p₂ →
          p₁.sequenceNumber ≠ p₂.sequenceNumber → (reply p₁).ackNumber ≠ (reply p₂).ackNumber) ↔
        r.sent.length ≤ 65536)) := by
  constructor
  · intro server d p printedAt sentAt hp hmtu _
    obtain ⟨answer, q, hloop, hdest, hq, hecho, hack⟩ :=
      loopBody_of_packet server hp hmtu printedAt sentAt
    exact ⟨answer, q, hloop, hdest, hq, hecho, by omega⟩
  · intro n addr sock whiskers track es r hrun
    have hinv := ClientRun.Inv.exec hrun
    rw [hinv.length_sent]
    constructor
    · intro hdiffer
      -- the packets with numbers zero and 65536 would have the same number
      by_contra hmany
      rw [not_le] at hmany
      obtain ⟨d₁, hd₁, p₁, hp₁, h₁⟩ := hinv.exists_sent (i := 0) (by omega)
      obtain ⟨d₂, hd₂, p₂, hp₂, h₂⟩ := hinv.exists_sent hmany
      have hne : p₁.sequenceNumber ≠ p₂.sequenceNumber := by
        intro heq
        rw [heq, h₂] at h₁
        cases h₁
      refine hdiffer d₁ hd₁ d₂ hd₂ p₁ p₂ hp₁ hp₂ hne (UInt64.toNat_inj.mp ?_)
      rw [reply_ackNumber, reply_ackNumber, h₁, h₂]
    · intro hfew d₁ hd₁ d₂ hd₂ p₁ p₂ hp₁ hp₂ hne
      obtain ⟨q₁, hq₁, h₁⟩ := hinv.packet_of_mem hd₁
      obtain ⟨q₂, hq₂, h₂⟩ := hinv.packet_of_mem hd₂
      rw [hp₁, Except.ok.injEq] at hq₁
      rw [hp₂, Except.ok.injEq] at hq₂
      subst hq₁ hq₂
      exact reply_ackNumber_ne (by omega) (by omega) hne

end Exact

/-- The packet with sequence number 7 is acknowledged by 8, and two packets of a run, of which the
first times out, by different numbers. -/
theorem ack_exact_iff_of_seven : letI := gcc48
    (∃ (d : Datagram) (reply : Datagram) (q : Packet),
      loopBody ⟨⟨1, 9⟩⟩ (some d) true [5, 6] = .ok (reply, []) ∧ reply.packet = .ok q ∧
      q.ackNumber.toNat = 8) ∧
    ∃ (es : List ClientRun.Event) (r : ClientRun),
      exec (ClientRun.step 2) (ClientRun.start ⟨1, 9⟩ ⟨⟨2, 8⟩⟩ .init true) es = some r ∧
      r.sent.length = 2 ∧
      ∀ d₁ ∈ r.sent, ∀ d₂ ∈ r.sent, ∀ p₁ p₂, d₁.packet = .ok p₁ → d₂.packet = .ok p₂ →
        p₁.sequenceNumber ≠ p₂.sequenceNumber → (reply p₁).ackNumber ≠ (reply p₂).ackNumber := by
  let _ := gcc48
  constructor
  · let p : Packet := .make ⟨2, 8⟩ 0 7 0 Client.helloPayload
    let d : Datagram := ⟨⟨2, 8⟩, ⟨1, 9⟩, p.str⟩
    have hmtu : d.bytes.length ≤ receiveMtu := by
      show p.str.length ≤ receiveMtu
      rw [Packet.length_str]
      decide
    obtain ⟨reply, q, hloop, -, hq, -, hack⟩ :=
      ack_exact_iff.1 ⟨⟨1, 9⟩⟩ d p 5 6 (Packet.ofString_str ⟨2, 8⟩ p) hmtu (by decide)
    exact ⟨d, reply, q, hloop, hq, hack.mpr (by decide)⟩
  · let es : List ClientRun.Event := [.enter 1, .send 5 5 true, .leave 6, .poll .timeout none [],
      .enter 7, .send 8 8 true]
    have hexec : (exec (ClientRun.step 2) (ClientRun.start ⟨1, 9⟩ ⟨⟨2, 8⟩⟩ .init true) es).map
        (fun r => r.sent.length) = some 2 := by
      decide +kernel
    obtain ⟨r, hrun, hlen⟩ := Option.map_eq_some_iff.mp hexec
    refine ⟨es, r, hrun, hlen, (ack_exact_iff.2 2 ⟨1, 9⟩ ⟨⟨2, 8⟩⟩ .init true es r hrun).mpr ?_⟩
    rw [hlen]
    decide

/-- The packet with sequence number 65535 is acknowledged by zero. -/
theorem ack_number_narrowed : letI := gcc48
    ∃ (d : Datagram) (p : Packet) (reply : Datagram) (q : Packet),
      d.packet = .ok p ∧ p.sequenceNumber = 65535 ∧
      loopBody ⟨⟨1, 9⟩⟩ (some d) true [5, 6] = .ok (reply, []) ∧ reply.packet = .ok q ∧
      q.ackNumber.toNat = 0 ∧ q.ackNumber.toNat ≠ p.sequenceNumber.toNat + 1 := by
  let _ := gcc48
  let p : Packet := .make ⟨2, 8⟩ 0 65535 0 Client.helloPayload
  let d : Datagram := ⟨⟨2, 8⟩, ⟨1, 9⟩, p.str⟩
  have hp : d.packet = .ok p := Packet.ofString_str ⟨2, 8⟩ p
  have hmtu : d.bytes.length ≤ receiveMtu := by
    show p.str.length ≤ receiveMtu
    rw [Packet.length_str]
    decide
  obtain ⟨reply, q, hloop, -, hq, -, hack⟩ := loopBody_of_packet ⟨⟨1, 9⟩⟩ hp hmtu 5 6
  have hseq : p.sequenceNumber.toNat = 65535 := rfl
  rw [hseq] at hack
  refine ⟨d, p, reply, q, hp, rfl, hloop, hq, hack, ?_⟩
  rw [hack]
  exact Nat.zero_ne_add_one _

end Server

namespace System

/-! ### The history of a run -/

/-- What a run shows from outside. -/
structure History where
  sent : ℕ := 0
  mark : ℕ := 0
  acks : List ℕ := []
  deriving DecidableEq, Repr

/-- The number of the acknowledgement that the client receives. -/
def ackReceived (e : ClientRun.Event) : Option ℕ :=
  e.received.bind fun d => d.packet.toOption.map fun q => q.ackNumber.toNat

/-- What an event adds: a packet that left, a timeout, or the number of an acknowledgement. -/
def History.observe (h : History) : Event → History
  | .client (.send _ _ true) => { h with sent := h.sent + 1 }
  | .client (.poll .timeout _ _) => { h with mark := h.sent }
  | .client e => { h with acks := h.acks ++ (ackReceived e).toList }
  | .serve _ _ _ => h

/-- The history of a run: the packets sent, the value `largest_ack` was given at the last timeout,
and the acknowledgement numbers received. -/
def history (es : List Event) : History := es.foldl History.observe {}

theorem history_concat (es : List Event) (e : Event) :
    history (es ++ [e]) = (history es).observe e := by
  rw [history, List.foldl_append]
  rfl

theorem ackReceived_eq_some {e : ClientRun.Event} {a : ℕ} :
    ackReceived e = some a ↔
      ∃ d q, e.received = some d ∧ d.packet = .ok q ∧ q.ackNumber.toNat = a := by
  unfold ackReceived
  rw [Option.bind_eq_some_iff]
  constructor
  · rintro ⟨d, hd, ha⟩
    cases hq : d.packet with
    | error why => rw [hq] at ha; cases ha
    | ok q =>
      rw [hq] at ha
      exact ⟨d, q, hd, hq, Option.some.inj ha⟩
  · rintro ⟨d, q, hd, hq, ha⟩
    exact ⟨d, hd, by rw [hq, ← ha]; rfl⟩

/-- Events other than timeouts and packets that leave. -/
theorem observe_client (h : History) {e : ClientRun.Event}
    (htimeout : ∀ incoming clock, e ≠ .poll .timeout incoming clock)
    (hsend : ∀ now sentAt, e ≠ .send now sentAt true) :
    h.observe (.client e) = { h with acks := h.acks ++ (ackReceived e).toList } := by
  cases e with
  | poll outcome incoming clock =>
    cases outcome with
    | timeout => exact absurd rfl (htimeout incoming clock)
    | _ => rfl
  | send now sentAt accepted =>
    cases accepted with
    | true => exact absurd rfl (hsend now sentAt)
    | false => rfl
  | _ => rfl

/-- An acknowledgement number of a history was there before the last event, or came with it. -/
theorem mem_acks_observe {h : History} {e : Event} {a : ℕ} :
    a ∈ (h.observe e).acks ↔ a ∈ h.acks ∨ ∃ e', e = .client e' ∧ ackReceived e' = some a := by
  cases e with
  | serve request printedAt sentAt => simp [History.observe]
  | client e =>
    by_cases htimeout : ∃ incoming clock, e = .poll .timeout incoming clock
    · obtain ⟨incoming, clock, rfl⟩ := htimeout
      simp [History.observe, ackReceived, ClientRun.Event.received]
    · by_cases hsend : ∃ now sentAt, e = .send now sentAt true
      · obtain ⟨now, sentAt, rfl⟩ := hsend
        simp [History.observe, ackReceived, ClientRun.Event.received]
      · push Not at htimeout hsend
        rw [observe_client h htimeout hsend]
        simp

/-- The value at the last timeout never falls. -/
theorem mark_le_observe {h : History} (hle : h.mark ≤ h.sent) (e : Event) :
    h.mark ≤ (h.observe e).mark := by
  unfold History.observe
  split
  · exact Nat.le_refl _
  · exact hle
  · exact Nat.le_refl _
  · exact Nat.le_refl _

section Runs

variable [Platform] {n : UInt64} {server : Socket}

/-- What is left of the acknowledgements in the client: **its `largest_ack` is the value of the
last timeout**. -/
structure Tracks (n : UInt64) (server : Socket) (es : List Event) (s : System) : Prop where
  inv : Inv n server s
  sent : (history es).sent = s.run.client.nextSeqnum.toNat
  ack : s.run.client.largestAck.toNat = (history es).mark

theorem Tracks.mark_le {es : List Event} {s : System} (h : Tracks n server es s) :
    (history es).mark ≤ (history es).sent := by
  rw [← h.ack, h.sent]
  exact h.inv.ack_le

/-- A step of the client that neither sends nor times out. -/
theorem Tracks.step_of_frame {es : List Event} {s s' : System} {e : ClientRun.Event}
    (h : Tracks n server es s) (hinv : Inv n server s')
    (htimeout : ∀ incoming clock, e ≠ .poll .timeout incoming clock)
    (hsend : ∀ now sentAt, e ≠ .send now sentAt true)
    (hnext : s'.run.client.nextSeqnum = s.run.client.nextSeqnum)
    (hack : s'.run.client.largestAck = s.run.client.largestAck) :
    Tracks n server (es ++ [.client e]) s' := by
  refine ⟨hinv, ?_, ?_⟩ <;> rw [history_concat, observe_client _ htimeout hsend]
  · rw [hnext]
    exact h.sent
  · rw [hack]
    exact h.ack

theorem Tracks.step {es : List Event} {s s' : System} {e : Event} (h : Tracks n server es s)
    (heff : Effect n server s e s') : Tracks n server (es ++ [e]) s' := by
  have hinv : Inv n server s' := h.inv.step heff
  cases heff with
  | serve now hmem hp =>
    refine ⟨hinv, ?_, ?_⟩ <;> rw [history_concat]
    · exact h.sent
    · exact h.ack
  | client hreceived heff =>
    cases heff with
    | send hpc hmay hdue =>
      obtain ⟨-, hsucc⟩ := ClientRun.toNat_next_succ hmay
      refine ⟨hinv, ?_, ?_⟩ <;> rw [history_concat]
      · rw [hsucc, ← h.sent]
        rfl
      · exact h.ack
    | timeout hpc =>
      refine ⟨hinv, ?_, ?_⟩ <;> rw [history_concat]
      · exact h.sent
      · exact h.sent.symm
    | @receive revents d q clock client hpc hread hq hc =>
      have hd : d ∈ s.replies := hreceived d (by rw [ClientRun.Event.received, if_pos hread]; rfl)
      obtain ⟨p, q', -, hq', -, -, hseq, -⟩ := h.inv.reply hd
      rw [hq, Except.ok.injEq] at hq'
      subst hq'
      refine h.step_of_frame hinv (by simp) (by simp) hc.nextSeqnum ?_
      -- the sequence number of an acknowledgement is zero
      rw [hc.largestAck, hseq, zero_max]
    | _ => exact h.step_of_frame hinv (by simp) (by simp) rfl rfl

theorem Tracks.start (n : UInt64) (server : Socket) (addr : Address) (sock : Socket)
    (whiskers : WhiskerTree) (track : Bool) :
    Tracks n server [] (start addr sock whiskers track) := by
  have hinv := Inv.start n server addr sock whiskers track
  have hnext : (System.start addr sock whiskers track).run.client.nextSeqnum.toNat = 0 := by
    rw [← hinv.run.length_sent, System.start, ClientRun.sent_start]
    rfl
  refine ⟨hinv, hnext.symm, ?_⟩
  have hack := hinv.ack_le
  rw [hnext] at hack
  exact Nat.le_zero.mp hack

theorem Tracks.exec {addr : Address} {sock : Socket} {whiskers : WhiskerTree} {track : Bool}
    {es : List Event} {s : System}
    (hrun : exec (System.step n server) (System.start addr sock whiskers track) es = some s) :
    Tracks n server es s := by
  refine Transition.exec_induct (.start n server addr sock whiskers track) ?_ es s hrun
  intro es s e s' _ ih hstep
  exact ih.step (step_effect hstep)

/-! ### Receptions -/

/-- In the run `es` from `s₀` the client processes an acknowledgement: it receives one and is not
stopped by it. -/
structure Reception (n : UInt64) (server : Socket) (s₀ : System) (es : List Event) where
  before : List Event
  event : ClientRun.Event
  after : List Event
  s : System
  s' : System
  datagram : Datagram
  packet : Packet
  run_eq : es = before ++ .client event :: after
  exec_before : exec (System.step n server) s₀ before = some s
  step_event : System.step n server s (.client event) = some s'
  received : event.received = some datagram
  decodes : datagram.packet = .ok packet
  running : s'.Running

namespace Reception

variable {s₀ : System} {es : List Event}

/-- A reception in a run is one in every run that goes on from it. -/
def extend (rec : Reception n server s₀ es) (es' : List Event) :
    Reception n server s₀ (es ++ es') :=
  { rec with
    after := rec.after ++ es'
    run_eq := by
      conv_lhs => rw [rec.run_eq]
      rw [List.append_assoc, List.cons_append] }

/-- Nothing is processed in a run in which nothing is received. -/
theorem isEmpty_of_none (h : ∀ e, Event.client e ∈ es → e.received = none) :
    IsEmpty (Reception n server s₀ es) := by
  constructor
  rintro ⟨before, event, after, s, s', d, q, rfl, -, -, hreceived, -, -⟩
  rw [h event (List.mem_append_right _ List.mem_cons_self)] at hreceived
  cases hreceived

/-- When only the last event of a run receives anything, that is the one reception. -/
theorem eq_last {es₀ : List Event} {e : ClientRun.Event}
    (h : ∀ e', Event.client e' ∈ es₀ → e'.received = none)
    (rec : Reception n server s₀ (es₀ ++ [.client e])) : rec.before = es₀ ∧ rec.event = e := by
  obtain ⟨before, event, after, s, s', d, q, hes, -, -, hreceived, -, -⟩ := rec
  show before = es₀ ∧ event = e
  rcases List.eq_nil_or_concat after with rfl | ⟨after, last, rfl⟩
  · obtain ⟨rfl, hevent⟩ := List.append_inj' hes rfl
    exact ⟨rfl, (Event.client.inj (List.head_eq_of_cons_eq hevent)).symm⟩
  · -- an event before the last receives nothing
    rw [List.concat_eq_append, ← List.cons_append, ← List.append_assoc] at hes
    obtain ⟨rfl, -⟩ := List.append_inj' hes rfl
    rw [h event (List.mem_append_right _ List.mem_cons_self)] at hreceived
    cases hreceived

theorem run_split (rec : Reception n server s₀ es) :
    es = (rec.before ++ [.client rec.event]) ++ rec.after := by
  rw [List.append_assoc]
  exact rec.run_eq

theorem exec_event (rec : Reception n server s₀ es) :
    exec (System.step n server) s₀ (rec.before ++ [.client rec.event]) = some rec.s' :=
  Transition.exec_snoc.mpr ⟨rec.s, rec.exec_before, rec.step_event⟩

/-- **What a reception does** is what the callback does with a reply of the server. -/
theorem effect (rec : Reception n server s₀ es) :
    rec.datagram ∈ rec.s.replies ∧
      rec.s.run.client.Received rec.packet rec.event.clock rec.s'.run.client := by
  obtain ⟨hreceived, heff⟩ := (step_effect rec.step_event).of_client
  exact ⟨hreceived _ rec.received, heff.of_received rec.received rec.decodes rec.running⟩

/-- A reception adds the number of the acknowledgement to the history, and nothing else. -/
theorem history_event (rec : Reception n server s₀ es) :
    history (rec.before ++ [.client rec.event]) = { history rec.before with
      acks := (history rec.before).acks ++ [rec.packet.ackNumber.toNat] } := by
  have hreceived := rec.received
  have hack : ackReceived rec.event = some rec.packet.ackNumber.toNat :=
    ackReceived_eq_some.mpr ⟨_, _, rec.received, rec.decodes, rfl⟩
  rw [history_concat, observe_client, hack]
  · rfl
  · intro incoming clock h
    rw [h] at hreceived
    cases hreceived
  · intro now sentAt h
    rw [h] at hreceived
    cases hreceived

/-- What a reception adds is below the greatest of the history. -/
theorem ack_le (rec : Reception n server s₀ es) {level : ℕ}
    (h : IsGreatest (insert (history (rec.before ++ [.client rec.event])).mark
      {a | a ∈ (history (rec.before ++ [.client rec.event])).acks}) level) :
    rec.packet.ackNumber.toNat ≤ level := by
  refine h.2 (Set.mem_insert_of_mem _ ?_)
  rw [rec.history_event]
  exact List.mem_append_right _ List.mem_cons_self

end Reception

/-! ### Progress -/

/-- Acknowledgements open the send window: `largest_ack` is always the maximum of the
acknowledgement numbers received and the value set at the last timeout, and so above the number
of every packet below 65535 whose acknowledgement the client has processed. -/
structure AckProgress (n : UInt64) (server : Socket) (s₀ : System) (es : List Event) : Prop where
  law : ∀ es₁ es₂ s, es = es₁ ++ es₂ → exec (System.step n server) s₀ es₁ = some s → s.Running →
    IsGreatest (insert (history es₁).mark {a | a ∈ (history es₁).acks})
      s.run.client.largestAck.toNat
  covers : ∀ (rec : Reception n server s₀ es) (p : Packet) (now : UInt64),
    rec.datagram = Server.answer server p now → p.sequenceNumber.toNat < 65535 →
    p.sequenceNumber.toNat + 1 ≤ rec.s'.run.client.largestAck.toNat

variable {addr : Address} {sock : Socket} {whiskers : WhiskerTree} {track : Bool}

/-- When no acknowledgement has a number above the last timeout before it, none has one above the
last timeout so far. -/
theorem acks_le_mark {es : List Event} {s : System}
    (hrun : exec (System.step n server) (System.start addr sock whiskers track) es = some s)
    (hrunning : s.Running)
    (hold : ∀ rec : Reception n server (System.start addr sock whiskers track) es,
      rec.packet.ackNumber.toNat ≤ (history rec.before).mark) :
    ∀ a ∈ (history es).acks, a ≤ (history es).mark := by
  refine Transition.exec_induct (P := fun es s => s.Running →
    (∀ rec : Reception n server (System.start addr sock whiskers track) es,
      rec.packet.ackNumber.toNat ≤ (history rec.before).mark) →
    ∀ a ∈ (history es).acks, a ≤ (history es).mark) ?_ ?_ es s hrun hrunning hold
  · intro _ _ a ha
    cases ha
  · intro es s e s' hbefore ih hstep hrunning hold a ha
    -- what was bounded by an old timeout is bounded by the last one
    have hmark : (history es).mark ≤ (history (es ++ [e])).mark := by
      rw [history_concat]
      exact mark_le_observe (Tracks.exec hbefore).mark_le e
    rw [history_concat] at ha
    rcases mem_acks_observe.mp ha with hseen | ⟨e', rfl, hnew⟩
    · have hs : s.Running := (step_effect hstep).running hrunning
      exact le_trans (ih hs (fun rec => hold (rec.extend [e])) a hseen) hmark
    · obtain ⟨d, q, hd, hq, rfl⟩ := ackReceived_eq_some.mp hnew
      exact le_trans (hold ⟨es, e', [], s, s', d, q, rfl, hbefore, hstep, hd, hq, hrunning⟩) hmark

/-- **`largest_ack` follows the timeouts only.**  In a run the acknowledgements open the send
window if and only if none that the client processes had any effect to have: each has a number
that is at most the value set at the last timeout before it. -/
theorem ack_progress_iff {es : List Event} {s : System}
    (hrun : exec (step n server) (start addr sock whiskers track) es = some s) :
    AckProgress n server (start addr sock whiskers track) es ↔
      ∀ rec : Reception n server (start addr sock whiskers track) es,
        rec.packet.ackNumber.toNat ≤ (history rec.before).mark := by
  constructor
  · intro hprogress rec
    have hle := rec.ack_le (hprogress.law _ _ _ rec.run_split rec.exec_event rec.running)
    rw [(Tracks.exec rec.exec_event).ack, rec.history_event] at hle
    exact hle
  · intro hold
    have hlaw : ∀ es₁ es₂ s, es = es₁ ++ es₂ →
        exec (step n server) (start addr sock whiskers track) es₁ = some s → s.Running →
        IsGreatest (insert (history es₁).mark {a | a ∈ (history es₁).acks})
          s.run.client.largestAck.toNat := by
      rintro es₁ es₂ s₁ rfl hrun₁ hrunning
      rw [(Tracks.exec hrun₁).ack]
      refine ⟨Set.mem_insert _ _, ?_⟩
      rintro a (rfl | ha)
      · exact Nat.le_refl _
      · exact acks_le_mark hrun₁ hrunning (fun rec => hold (rec.extend es₂)) a ha
    -- below 65535 the number is not narrowed
    refine ⟨hlaw, fun rec p now hanswer hlt => ?_⟩
    have hle := rec.ack_le (hlaw _ _ _ rec.run_split rec.exec_event rec.running)
    have hdecodes := rec.decodes
    rw [hanswer, Server.packet_answer, Except.ok.injEq] at hdecodes
    have hack : rec.packet.ackNumber.toNat = (p.sequenceNumber.toNat + 1) % 65536 := by
      rw [← hdecodes]
      exact Server.reply_ackNumber p
    omega

end Runs

/-- Two packets, of which the first times out before its acknowledgement arrives: the number of the
acknowledgement is the value set at the timeout. -/
theorem ack_progress_iff_of_timeout : letI := gcc48
    ∃ (es : List Event) (s : System),
      exec (step 2 ⟨⟨1, 9⟩⟩) (start ⟨1, 9⟩ ⟨⟨2, 8⟩⟩ .init true) es = some s ∧
      (history es).acks = [1] ∧ s.run.pc = .outer ∧ s.run.client.largestAck = 1 ∧
      AckProgress 2 ⟨⟨1, 9⟩⟩ (start ⟨1, 9⟩ ⟨⟨2, 8⟩⟩ .init true) es := by
  let _ := gcc48
  let p : Packet := (Packet.make ⟨1, 9⟩ 0 0 0 Client.helloPayload).setSendTimestamp 5
  let reply : Datagram := Server.answer ⟨⟨1, 9⟩⟩ { p with addr_ := ⟨2, 8⟩ } 1007
  let before : List Event := [.client (.enter 1), .client (.send 5 5 true), .client (.leave 6),
    .client (.poll .timeout none []), .serve ⟨⟨2, 8⟩, ⟨1, 9⟩, p.str⟩ 1006 1007,
    .client (.enter 1008), .client (.send 1009 1009 true), .client (.leave 1010)]
  let last : ClientRun.Event := .poll (.ready [pollIn]) (some reply) [1011, 1012]
  let es : List Event := before ++ [.client last]
  have hexec : (exec (step 2 ⟨⟨1, 9⟩⟩) (start ⟨1, 9⟩ ⟨⟨2, 8⟩⟩ .init true) es).map
      (fun s => (s.run.pc, s.run.client.largestAck)) = some (.outer, 1) := by
    decide +kernel
  have hacks : (history es).acks = [1] := by decide +kernel
  have hmark : (history before).mark = 1 := by decide +kernel
  obtain ⟨s, hrun, hs⟩ := Option.map_eq_some_iff.mp hexec
  obtain ⟨hpc, hack⟩ := Prod.mk.inj hs
  have hnone : ∀ e, Event.client e ∈ before → e.received = none := by
    intro e he
    simp only [before, List.mem_cons, Event.client.injEq, reduceCtorEq, List.not_mem_nil, or_false,
      false_or] at he
    rcases he with rfl | rfl | rfl | rfl | rfl | rfl | rfl <;> rfl
  refine ⟨es, s, hrun, hacks, hpc, hack, (ack_progress_iff hrun).mpr fun rec => ?_⟩
  -- the acknowledgement is the only one, so it has the number one
  obtain ⟨hbefore, hevent⟩ := rec.eq_last hnone
  have hone : (history (rec.before ++ [.client rec.event])).acks = [1] := by
    rw [hbefore, hevent]
    exact hacks
  rw [rec.history_event] at hone
  have hmem : rec.packet.ackNumber.toNat ∈ [1] := hone ▸ List.mem_append_right _ List.mem_cons_self
  rw [List.mem_singleton.mp hmem, hbefore, hmark]

/-- The acknowledgement of the first packet has number one, and `largest_ack` stays at zero. -/
theorem acknowledgement_without_progress : letI := gcc48
    ∃ (es : List Event) (s : System),
      exec (step 2 ⟨⟨1, 9⟩⟩) (start ⟨1, 9⟩ ⟨⟨2, 8⟩⟩ .init true) es = some s ∧
      (history es).acks = [1] ∧ s.run.client.largestAck = 0 ∧
      ¬ AckProgress 2 ⟨⟨1, 9⟩⟩ (start ⟨1, 9⟩ ⟨⟨2, 8⟩⟩ .init true) es := by
  let _ := gcc48
  let p : Packet := (Packet.make ⟨1, 9⟩ 0 0 0 Client.helloPayload).setSendTimestamp 5
  let es : List Event := [.client (.enter 1), .client (.send 5 5 true),
    .serve ⟨⟨2, 8⟩, ⟨1, 9⟩, p.str⟩ 6 7, .client (.leave 8),
    .client (.poll (.ready [pollIn]) (some (Server.answer ⟨⟨1, 9⟩⟩ { p with addr_ := ⟨2, 8⟩ } 7))
      [9, 10])]
  have hexec : (exec (step 2 ⟨⟨1, 9⟩⟩) (start ⟨1, 9⟩ ⟨⟨2, 8⟩⟩ .init true) es).map
      (fun s => (s.run.pc, s.run.client.largestAck)) = some (.outer, 0) := by
    decide +kernel
  have hacks : (history es).acks = [1] := by decide +kernel
  obtain ⟨s, hrun, hs⟩ := Option.map_eq_some_iff.mp hexec
  obtain ⟨hpc, hack⟩ := Prod.mk.inj hs
  refine ⟨es, s, hrun, hacks, hack, fun hprogress => ?_⟩
  have hgreatest := hprogress.law es [] s (List.append_nil _).symm hrun (by simp [Running, hpc])
  have hle : 1 ≤ s.run.client.largestAck.toNat :=
    hgreatest.2 (Set.mem_insert_of_mem _ (by rw [hacks]; exact List.mem_cons_self))
  rw [hack] at hle
  exact absurd hle (by decide)

/-! ### The memory -/

section Memory

variable [Platform] {n : UInt64} {server : Socket} {s₀ : System} {es : List Event}

/-- An acknowledgement feeds the memory: it passes the flow filter, the memory takes over its
timestamp and the time of its reception, which is the first reading of the callback, and the rule
is looked up in that memory. -/
structure FeedsMemory (rec : Reception n server s₀ es) : Prop where
  passes : rec.packet.flowId = rec.s.run.client.flowId.toUInt32.toUInt64
  ticks : ∀ now clock, rec.event.clock = now :: clock → now ≠ 0 →
    rec.packet.echoReplyTimestamp ≠ 0 →
    rec.s'.run.client.memory.lastTickSent = rec.packet.echoReplyTimestamp.toNat ∧
    rec.s'.run.client.memory.lastTickReceived = now.toNat
  lookup : rec.s.run.client.UsesRule rec.s'.run.client.memory rec.s'.run.client.whiskers
    rec.s'.run.client.theWindow

/-- **No acknowledgement reaches the memory.**  In a run all acknowledgements that the client
processes feed the memory if and only if it processes none, and the memory stays as it was at the
beginning. -/
theorem feeds_memory_iff {addr : Address} {sock : Socket} {whiskers : WhiskerTree} {track : Bool}
    {s : System} (hrun : exec (step n server) (start addr sock whiskers track) es = some s) :
    ((∀ rec : Reception n server (start addr sock whiskers track) es, FeedsMemory rec) ↔
      IsEmpty (Reception n server (start addr sock whiskers track) es)) ∧
    s.run.client.memory = .init := by
  refine ⟨⟨fun hfeeds => ⟨fun rec => ?_⟩, fun hempty rec => (hempty.false rec).elim⟩,
    (Inv.exec hrun).memory⟩
  -- the reply has flow id 0, the client's is 1
  have hinv := Inv.exec rec.exec_before
  obtain ⟨p, q, -, hq, -, hflow, -⟩ := hinv.reply rec.effect.1
  rw [rec.decodes, Except.ok.injEq] at hq
  have hpasses := (hfeeds rec).passes
  rw [hq, hflow, hinv.run.flowId] at hpasses
  exact absurd hpasses (by decide)

end Memory

/-- A packet that is sent and times out. -/
theorem feeds_memory_iff_of_timeout : letI := gcc48
    ∃ (es : List Event) (s : System),
      exec (step 1 ⟨⟨1, 9⟩⟩) (start ⟨1, 9⟩ ⟨⟨2, 8⟩⟩ .init true) es = some s ∧
      (∀ rec : Reception 1 ⟨⟨1, 9⟩⟩ (start ⟨1, 9⟩ ⟨⟨2, 8⟩⟩ .init true) es, FeedsMemory rec) ∧
      s.run.client.memory = .init := by
  let _ := gcc48
  let es : List Event := [.client (.enter 1), .client (.send 5 5 true), .client (.leave 6),
    .client (.poll .timeout none [])]
  have hexec : (exec (step 1 ⟨⟨1, 9⟩⟩) (start ⟨1, 9⟩ ⟨⟨2, 8⟩⟩ .init true) es).isSome := by
    decide +kernel
  obtain ⟨s, hrun⟩ := Option.isSome_iff_exists.mp hexec
  have hnone : ∀ e, Event.client e ∈ es → e.received = none := by
    intro e he
    simp only [es, List.mem_cons, Event.client.injEq, List.not_mem_nil, or_false] at he
    rcases he with rfl | rfl | rfl | rfl <;> rfl
  obtain ⟨hiff, hmemory⟩ := feeds_memory_iff hrun
  exact ⟨es, s, hrun, hiff.mpr (Reception.isEmpty_of_none hnone), hmemory⟩

/-- The acknowledgement of a packet sent at the time 5: the memory keeps the timestamp zero. -/
theorem acknowledgement_without_memory : letI := gcc48
    ∃ (es : List Event) (rec : Reception 1 ⟨⟨1, 9⟩⟩ (start ⟨1, 9⟩ ⟨⟨2, 8⟩⟩ .init true) es),
      rec.packet.echoReplyTimestamp = 5 ∧ rec.s'.run.client.memory.lastTickSent = 0 ∧
      ¬ FeedsMemory rec := by
  let _ := gcc48
  let p : Packet := (Packet.make ⟨1, 9⟩ 0 0 0 Client.helloPayload).setSendTimestamp 5
  let reply : Datagram := Server.answer ⟨⟨1, 9⟩⟩ { p with addr_ := ⟨2, 8⟩ } 7
  let before : List Event := [.client (.enter 1), .client (.send 5 5 true),
    .serve ⟨⟨2, 8⟩, ⟨1, 9⟩, p.str⟩ 6 7, .client (.leave 8)]
  let event : ClientRun.Event := .poll (.ready [pollIn]) (some reply) [9, 10]
  have hexec : (exec (step 1 ⟨⟨1, 9⟩⟩) (start ⟨1, 9⟩ ⟨⟨2, 8⟩⟩ .init true)
      (before ++ [.client event])).map (fun s => (s.run.pc, s.run.client.memory.lastTickSent))
      = some (.outer, 0) := by
    decide +kernel
  obtain ⟨s', hrun, hs⟩ := Option.map_eq_some_iff.mp hexec
  obtain ⟨hpc, htick⟩ := Prod.mk.inj hs
  obtain ⟨s, hbefore, hstep⟩ := Transition.exec_snoc.mp hrun
  let reception : Reception 1 ⟨⟨1, 9⟩⟩ (start ⟨1, 9⟩ ⟨⟨2, 8⟩⟩ .init true)
      (before ++ [.client event]) :=
    { before := before, event := event, after := [], s := s, s' := s', datagram := reply
      packet := _, run_eq := rfl, exec_before := hbefore, step_event := hstep, received := rfl
      decodes := Server.packet_answer _ _ _, running := by simp [Running, hpc] }
  refine ⟨_, reception, rfl, htick, fun hfeeds => ?_⟩
  have hecho : reception.packet.echoReplyTimestamp = 5 := rfl
  have hzero : reception.s'.run.client.memory.lastTickSent = 0 := htick
  have hsent := (hfeeds.ticks 9 [10] rfl (by decide) (by rw [hecho]; decide)).1
  rw [hzero, hecho] at hsent
  exact absurd hsent (by decide +kernel)

end System

end SendReceive
