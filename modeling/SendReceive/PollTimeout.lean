import SendReceive.Batch
import SendReceive.ClientRun
import SendReceive.Timer

/-!
# The timeout of the poller

`Client::run` passes the retransmission timeout to `Poller::poll`, which takes an `int`: a number
that does not fit could come out negative there, and the client would wait forever.

* `ClientRun.Event.sample` — the round-trip time that the callback measures.
* `ClientRun.timer_of_step` — **only such a sample changes the timer**.
* `ClientRun.poll_timeout_bounded` — **the timeout stays in the range of the samples**.
-/

namespace SendReceive

open Transition (exec)

namespace Client

variable {c c' : Client} {p : Packet} {clock clock' : Clock}

/-- The reading of the clock that `update_timeout` takes for a packet: the memory takes one before
it for the packets of the flow. -/
def timeoutReading (p : Packet) (clock : Clock) : Option UInt64 :=
  if p.flowId = 1 then clock[1]? else clock[0]?

/-- **What a reception does to the timer**: that of a client whose packets are of the flow 1 takes
the round-trip time at the second reading of the clock, or at the first one. -/
theorem timer_of_receive {d : Datagram} (hflow : c.flowId = 1) (hp : d.packet = .ok p)
    (h : c.receive (some d) clock = .ok (c', clock')) :
    ∃ now, timeoutReading p clock = some now ∧
      c'.timer = (c.updated (now - p.echoReplyTimestamp)).timer := by
  obtain ⟨d', q, memory, rest, c₀, c₁, rest', utility, hd, hq, hmemory, hset, htimeout, rfl⟩ :=
    receive_parts h
  obtain rfl := Option.some.inj hd
  obtain rfl := Except.ok.inj (hp.symm.trans hq)
  obtain ⟨-, intersend, hc₀⟩ := setWindowIntersend_eq_ok hset
  obtain ⟨readings, rfl, hlength⟩ := MemoryOf.readings_packetReceived hmemory
  rw [hflow] at hlength
  cases rest with
  | nil => cases htimeout
  | cons now rest =>
    rw [updateTimeout_eq] at htimeout
    obtain ⟨rfl, -⟩ := Prod.mk.inj (Except.ok.inj htimeout)
    refine ⟨now, ?_, ?_⟩
    · have hone : (1 : UInt64).toUInt32.toUInt64 = 1 := rfl
      rw [hone] at hlength
      unfold timeoutReading
      by_cases hp1 : p.flowId = 1
      · rw [if_pos hp1] at hlength ⊢
        obtain ⟨first, rfl⟩ := List.length_eq_one_iff.mp hlength
        rfl
      · rw [if_neg hp1] at hlength ⊢
        obtain rfl := List.length_eq_zero_iff.mp hlength
        rfl
    · rw [hc₀]
      rfl

end Client

namespace ClientRun

/-- The round-trip time that the callback measures in an event. -/
def Event.sample (e : Event) : Option UInt64 := do
  let d ← e.received
  let p ← d.packet.toOption
  let now ← Client.timeoutReading p e.clock
  return now - p.echoReplyTimestamp

variable {n : UInt64} {r r' : ClientRun} {e : Event}

section Step

variable [Platform]

/-- **Only a sample changes the timer.** -/
theorem timer_of_step (hflow : r.client.flowId = 1) (h : step n r e = some r') :
    r'.client.timer = r.client.timer ∨
      ∃ s, e.sample = some s ∧ r'.client.timer = (r.client.updated s).timer := by
  cases step_effect h with
  | receive hpc hread hp hreceived =>
    obtain ⟨now, hnow, htimer⟩ :=
      Client.timer_of_receive hflow hp (receive_of_step hpc hread h rfl)
    refine Or.inr ⟨_, ?_, htimer⟩
    rw [Event.sample, Event.received, if_pos hread]
    simp [Event.clock, hp, hnow, Except.toOption]
  | _ => exact Or.inl rfl

end Step

/-- What the bound `R` of the samples says of the timer. -/
structure Timed (R : ℕ) (r : ClientRun) : Prop where
  below : r.client.estimate.Below R
  rto_ge : 1000 ≤ r.client.rto.toNat
  rto_le : r.client.rto.toNat ≤ max 1000 (5 * R)

/-- The timer is as it was. -/
theorem Timed.of_timer_eq {R : ℕ} (h : Timed R r) (heq : r'.client.timer = r.client.timer) :
    Timed R r' := by
  simp only [Client.timer, Prod.mk.injEq] at heq
  obtain ⟨hsrtt, hrttvar, hrto⟩ := heq
  exact ⟨⟨hsrtt.le.trans h.below.srtt_le, hrttvar.le.trans h.below.rttvar_le⟩,
    h.rto_ge.trans hrto.ge, hrto.le.trans h.rto_le⟩

/-- The timer took a sample. -/
theorem Timed.of_sample {R : ℕ} {s : UInt64} (h : Timed R r) (hR : 5 * R < 2 ^ 31)
    (hs : s.toNat ≤ R) (heq : r'.client.timer = (r.client.updated s).timer) : Timed R r' := by
  have hbelow := h.below.next hs
  rw [Client.timer_updated h.below hs (by omega)] at heq
  simp only [Client.timer, Reference.timer, Prod.mk.injEq] at heq
  obtain ⟨hsrtt, hrttvar, hrto⟩ := heq
  obtain ⟨hge, hle⟩ := hbelow.rto_le
  exact ⟨⟨hsrtt.le.trans hbelow.srtt_le, hrttvar.le.trans hbelow.rttvar_le⟩, hge.trans hrto.ge,
    hrto.le.trans hle⟩

theorem Timed.start (R : ℕ) (addr : Address) (sock : Socket) (whiskers : WhiskerTree)
    (track : Bool) : Timed R (start addr sock whiskers track) := by
  obtain ⟨whiskers', theWindow, intersend, -, hc⟩ := client_start addr sock whiskers track
  have htimer : (ClientRun.start addr sock whiskers track).client.timer = (0, 0, 1000) := by
    rw [hc]
    rfl
  simp only [Client.timer, Prod.mk.injEq] at htimer
  obtain ⟨hsrtt, hrttvar, hrto⟩ := htimer
  refine ⟨⟨?_, ?_⟩, ?_, ?_⟩
  · exact hsrtt.le.trans (Nat.zero_le R)
  · exact hrttvar.le.trans (Nat.zero_le R)
  · exact hrto.ge
  · exact hrto.le.trans (le_max_left _ _)

/-- A small number comes out of the narrowing to an `int` as it is. -/
theorem toInt_narrowed {a : UInt64} (h : a.toNat < 2 ^ 31) :
    a.toUInt32.toInt32.toInt = a.toNat := by
  have hsmall : a.toUInt32.toNat = a.toNat := by
    rw [UInt64.toNat_toUInt32]
    omega
  rw [toInt_toInt32, hsmall, if_pos h]

section Run

variable [Platform] {addr : Address} {sock : Socket} {whiskers : WhiskerTree} {track : Bool}
  {es : List Event} {R : ℕ}

theorem Timed.exec (hR : 5 * R < 2 ^ 31)
    (hrun : exec (step n) (ClientRun.start addr sock whiskers track) es = some r)
    (hsamples : ∀ e ∈ es, ∀ s ∈ e.sample, s.toNat ≤ R) : Timed R r := by
  have hboth : Inv n r ∧ Timed R r := by
    refine Transition.exec_invariant_of (I := fun r => Inv n r ∧ Timed R r)
      ⟨.start n addr sock whiskers track, .start R addr sock whiskers track⟩ ?_ hrun hsamples
    rintro r e r' he ⟨hinv, htimed⟩ hstep
    refine ⟨hinv.step (step_effect hstep), ?_⟩
    rcases timer_of_step hinv.flowId hstep with heq | ⟨s, hs, heq⟩
    · exact htimed.of_timer_eq heq
    · exact htimed.of_sample hR (he s hs) heq
  exact hboth.2

/-- **The timeout stays in the range of the samples**: at each point of a run the estimates are no
more than the bound of the samples and the timeout no more than five times it, or a second; the
`int` that the poller gets is the timeout, and so it never waits without one. -/
theorem poll_timeout_bounded (hR : 5 * R < 2 ^ 31)
    (hrun : exec (step n) (ClientRun.start addr sock whiskers track) es = some r)
    (hsamples : ∀ e ∈ es, ∀ s ∈ e.sample, s.toNat ≤ R) :
    r.client.srtt.toNat ≤ R ∧ r.client.rttvar.toNat ≤ R ∧
      1000 ≤ r.client.rto.toNat ∧ r.client.rto.toNat ≤ max 1000 (5 * R) ∧
      r.client.rto.toUInt32.toInt32.toInt = r.client.rto.toNat ∧
      1000 ≤ r.client.rto.toUInt32.toInt32.toInt := by
  obtain ⟨⟨hsrtt, hrttvar⟩, hge, hle⟩ := Timed.exec hR hrun hsamples
  have hnarrow : r.client.rto.toUInt32.toInt32.toInt = r.client.rto.toNat :=
    toInt_narrowed (by omega)
  refine ⟨hsrtt, hrttvar, hge, hle, hnarrow, ?_⟩
  rw [hnarrow]
  exact_mod_cast hge

end Run

/-- A packet that is answered within four milliseconds. -/
theorem poll_timeout_bounded_of_one : letI := gcc48
    ∃ (es : List Event) (r : ClientRun),
      exec (step 2) (start ⟨1, 9⟩ ⟨⟨2, 8⟩⟩ .init true) es = some r ∧
      (∃ e ∈ es, e.sample = some 4) ∧ r.client.srtt.toNat ≤ 4 ∧
      1000 ≤ r.client.rto.toUInt32.toInt32.toInt := by
  let _ := gcc48
  let d : Datagram :=
    ⟨⟨1, 9⟩, ⟨2, 8⟩, ((Packet.make ⟨1, 9⟩ 0 0 1 []).setEchoReplyTimestamp 5).str⟩
  let es : List Event :=
    [.enter 1, .send 5 5 true, .leave 6, .poll (.ready [pollIn]) (some d) [9, 10]]
  have hexec : (exec (step 2) (start ⟨1, 9⟩ ⟨⟨2, 8⟩⟩ .init true) es).map (·.pc)
      = some .outer := by
    decide +kernel
  have hsample : es.map (·.sample) = [none, none, none, some 4] := by decide +kernel
  have hsamples : ∀ e ∈ es, ∀ s ∈ e.sample, s.toNat ≤ 4 := by
    intro e he s hs
    have hmem : e.sample ∈ es.map (·.sample) := List.mem_map_of_mem he
    rw [hsample, Option.mem_def.mp hs] at hmem
    simp at hmem
    rw [hmem]
    rfl
  obtain ⟨r, hrun, -⟩ := Option.map_eq_some_iff.mp hexec
  obtain ⟨hsrtt, -, -, -, -, hpoll⟩ := poll_timeout_bounded (R := 4) (by norm_num) hrun hsamples
  refine ⟨es, r, hrun, ⟨es[3], by simp [es], ?_⟩, hsrtt, hpoll⟩
  decide +kernel

end ClientRun

end SendReceive
