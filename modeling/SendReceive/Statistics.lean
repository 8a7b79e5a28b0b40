import Mathlib.Analysis.SpecialFunctions.Log.Base
import Mathlib.Data.EReal.Operations
import SendReceive.Survival
import SendReceive.Timeouts

/-!
# What the client prints at its end

`Client::run` keeps three counters and prints, when the transfer is completed, two averages and a
utility made of them.  The counters are sums over the run: the time of each visit of the inner loop
and the delay of each acknowledgement.  The time that is counted leaves out the waiting in the
poller, so the throughput that is printed is at least the true one.

## Main definitions

* `Utility.averageThroughput`, `Utility.averageDelay`, `Utility.utility` — what is printed.
* `ClientRun.delays`, `ClientRun.sendings` — what a run adds to the counters.

## Main results

* `ClientRun.statistics_account` — **the counters are sums over the run**.
* `System.statistics_bound` — **what is printed flatters**.
-/

namespace SendReceive

open Transition (exec)

/-! ### The averages -/

namespace Utility

/-- `Utility::average_throughput`, in packets for each millisecond. -/
def averageThroughput (u : Utility) : DataType :=
  if u.timeSending = 0 then 0 else u.packetsReceived.toNat / u.timeSending.toNat

/-- `Utility::average_delay`, in milliseconds. -/
def averageDelay (u : Utility) : DataType :=
  if u.packetsReceived = 0 then 0 else u.totalDelay.toNat / u.packetsReceived.toNat

/-- `std::numeric_limits< double >::lowest()`. -/
noncomputable def lowest : EReal := ((-(2 ^ 1024 - 2 ^ 971) : ℝ) : EReal)

/-- `log2` of a double that is not negative. -/
noncomputable def log2 (x : DataType) : EReal := if x = 0 then ⊥ else (Real.logb 2 x : ℝ)

/-- `Utility::utility`. -/
noncomputable def utility (u : Utility) : EReal :=
  if u.timeSending = 0 then 0
  else if u.packetsReceived = 0 then lowest
  else log2 u.averageThroughput - log2 (u.averageDelay / 100)

/-- The counters after a packet that took the time `delay`. -/
def counted (u : Utility) (delay : UInt64) : Utility :=
  { u with packetsReceived := u.packetsReceived + 1, totalDelay := u.totalDelay + delay }

theorem packetReceived_eq_ok {u u' : Utility} {p : Packet} {clock clock' : Clock}
    (h : u.packetReceived p clock = .ok (u', clock')) :
    ∃ now, clock = now :: clock' ∧ p.echoReplyTimestamp ≤ now ∧
      u' = u.counted (now - p.echoReplyTimestamp) := by
  cases clock with
  | nil => cases h
  | cons now rest =>
    rw [packetReceived, timestamp_cons, ok_bind] at h
    dsimp only at h
    split at h
    · rename_i hle
      obtain ⟨rfl, rfl⟩ := Prod.mk.inj (Except.ok.inj h)
      exact ⟨now, rfl, hle, rfl⟩
    · cases h

end Utility

/-! ### The counters in a run -/

/-- **What a reception does to the counters**: the last reading of the clock is compared with the
stamp that came back. -/
theorem Client.utility_of_receive {c c' : Client} {d : Datagram} {q : Packet} {clock : Clock}
    (hq : d.packet = .ok q) (h : c.receive (some d) clock = .ok (c', [])) :
    ∃ now, clock.getLast? = some now ∧ q.echoReplyTimestamp ≤ now ∧
      c'.utility = c.utility.counted (now - q.echoReplyTimestamp) := by
  unfold receive at h
  obtain ⟨p, hrecv, h⟩ := bind_eq_ok.mp h
  obtain ⟨⟨c₀, rest⟩, hpacket, h⟩ := bind_eq_ok.mp h
  obtain ⟨⟨c₁, rest'⟩, htimeout, h⟩ := bind_eq_ok.mp h
  obtain ⟨⟨utility, rest''⟩, hutility, h⟩ := bind_eq_ok.mp h
  obtain ⟨rfl, rfl⟩ := Prod.mk.inj (Except.ok.inj h)
  obtain ⟨d', hd', hp⟩ := Socket.recv_eq_ok hrecv
  obtain rfl := Option.some.inj hd'
  obtain rfl : p = q := Except.ok.inj (hp.symm.trans hq)
  obtain ⟨now, rfl, hle, rfl⟩ := Utility.packetReceived_eq_ok hutility
  -- what comes before touches neither the counters nor the last reading
  unfold packetReceived at hpacket
  obtain ⟨⟨sender, readings⟩, hmemory, hpacket⟩ := bind_eq_ok.mp hpacket
  obtain ⟨memory, -, hpacket⟩ := bind_eq_ok.mp hpacket
  obtain ⟨c₂, hset, hpacket⟩ := bind_eq_ok.mp hpacket
  obtain ⟨rfl, rfl⟩ := Prod.mk.inj (Except.ok.inj hpacket)
  obtain ⟨-, intersend, hc₂⟩ := setWindowIntersend_eq_ok hset
  obtain ⟨before, rfl, -⟩ := MemoryOf.readings_packetReceived hmemory
  have hlast : ∃ first, readings = first :: [now] := by
    cases readings with
    | nil => cases htimeout
    | cons first rest =>
      rw [updateTimeout_eq] at htimeout
      obtain ⟨-, hrest⟩ := Prod.mk.inj (Except.ok.inj htimeout)
      exact ⟨first, congrArg (first :: ·) hrest⟩
  obtain ⟨first, rfl⟩ := hlast
  obtain ⟨srtt, rttvar, rto, rfl⟩ := updateTimeout_eq_ok htimeout
  refine ⟨now, ?_, hle, ?_⟩
  · simp
  · show c₂.utility.counted _ = _
    rw [hc₂]

/-- When the inner loop was entered, at a point of the loops. -/
def Pc.opened : Pc → Option UInt64
  | .inner startSending => some startSending
  | _ => none

namespace ClientRun

/-- The delay that a reception adds to the counters. -/
def Event.delay (e : Event) : Option UInt64 := do
  let d ← e.received
  let p ← d.packet.toOption
  let now ← e.clock.getLast?
  return now - p.echoReplyTimestamp

/-- The delays that a run adds to the counters. -/
def delays (es : List Event) : List UInt64 := es.filterMap Event.delay

/-- When the inner loop was entered that the client is in. -/
def Event.opens (opened : Option UInt64) : Event → Option UInt64
  | .enter startSending => some startSending
  | .leave _ => none
  | _ => opened

/-- The time that leaving the inner loop adds to the counters. -/
def Event.sending (opened : Option UInt64) : Event → Option UInt64
  | .leave now => opened.map (now - ·)
  | _ => none

/-- The times that a run adds to the counters. -/
def sendings : Option UInt64 → List Event → List UInt64
  | _, [] => []
  | opened, e :: es => (e.sending opened).toList ++ sendings (e.opens opened) es

/-- The counters after a run from some state: what the run added. -/
def Added (opened : Option UInt64) (es : List Event) (u u' : Utility) : Prop :=
  u'.timeSending = u.timeSending + (sendings opened es).sum ∧
    u'.packetsReceived = u.packetsReceived + UInt64.ofNat (delays es).length ∧
    u'.totalDelay = u.totalDelay + (delays es).sum

theorem Added.nothing {opened : Option UInt64} {e : Event} {u : Utility}
    (hsending : e.sending opened = none) (hdelay : e.delay = none) : Added opened [e] u u := by
  simp [Added, sendings, delays, hsending, hdelay]

theorem Added.duration (startSending now : UInt64) (u : Utility) :
    Added (some startSending) [.leave now] u (u.sendingDuration (now - startSending)) := by
  have hdelay : (Event.leave now).delay = none := rfl
  simp [Added, sendings, delays, Event.sending, hdelay, Utility.sendingDuration]

theorem Added.delay {opened : Option UInt64} {e : Event} {d : UInt64} {u : Utility}
    (hsending : e.sending opened = none) (hdelay : e.delay = some d) :
    Added opened [e] u (u.counted d) := by
  simp [Added, sendings, delays, hsending, hdelay, Utility.counted]

/-- What one event adds, and the events after it. -/
theorem Added.cons {opened : Option UInt64} {e : Event} {es : List Event} {u u' u'' : Utility}
    (h : Added opened [e] u u') (h' : Added (e.opens opened) es u' u'') :
    Added opened (e :: es) u u'' := by
  obtain ⟨htime, hpackets, hdelay⟩ := h
  obtain ⟨htime', hpackets', hdelay'⟩ := h'
  have hdelays : delays (e :: es) = delays [e] ++ delays es := List.filterMap_append (l := [e])
  have hsendings : sendings opened (e :: es)
      = sendings opened [e] ++ sendings (e.opens opened) es := by
    simp [sendings]
  refine ⟨?_, ?_, ?_⟩
  · rw [htime', htime, hsendings, List.sum_append, UInt64.add_assoc]
  · rw [hpackets', hpackets, hdelays, List.length_append, UInt64.ofNat_add, UInt64.add_assoc]
  · rw [hdelay', hdelay, hdelays, List.sum_append, UInt64.add_assoc]

section Step

variable [Platform] {n : UInt64} {r r' : ClientRun} {e : Event}

/-- The inner loop is entered and left in the events that say so. -/
theorem opened_of_step (h : Effect n r e r') (hrunning : ∀ why, r'.pc ≠ .stopped why) :
    r'.pc.opened = e.opens r.pc.opened := by
  cases h with
  | refused | pollFails | dies => exact absurd rfl (hrunning _)
  | enter | leave => rfl
  | wait | send => rfl
  | finish hpc => rw [hpc]; rfl
  | timeout hpc | pollError hpc | idle hpc | receive hpc => rw [hpc]; rfl

/-- The delay of a reception is the time from the stamp that came back to the last reading. -/
theorem delay_of_receive {revents : List UInt16} {d : Datagram} {q : Packet} {clock : Clock}
    (hpc : r.pc = .polling) (hread : Poller.readable (revents.headD 0)) (hq : d.packet = .ok q)
    (h : step n r (.poll (.ready revents) (some d) clock) = some r') (hrunning : r'.pc = .outer) :
    ∃ now ∈ clock, q.echoReplyTimestamp ≤ now ∧
      (Event.poll (.ready revents) (some d) clock).delay = some (now - q.echoReplyTimestamp) ∧
      r'.client.utility = r.client.utility.counted (now - q.echoReplyTimestamp) := by
  obtain ⟨now, hlast, hle, hutility⟩ :=
    Client.utility_of_receive hq (receive_of_step hpc hread h hrunning)
  refine ⟨now, List.mem_of_getLast? hlast, hle, ?_, hutility⟩
  rw [Event.delay, Event.received, if_pos hread]
  simp [Event.clock, hq, hlast, Except.toOption]

/-- A reception that does not stop the client has a delay. -/
theorem delay_of_received (h : step n r e = some r') (hrunning : ∀ why, r'.pc ≠ .stopped why)
    {d : Datagram} (hd : e.received = some d) :
    ∃ q, d.packet = .ok q ∧ ∃ now ∈ e.clock, q.echoReplyTimestamp ≤ now ∧
      e.delay = some (now - q.echoReplyTimestamp) := by
  cases step_effect h with
  | receive hpc hread hq hreceived =>
    rw [Event.received, if_pos hread] at hd
    obtain rfl := Option.some.inj hd
    obtain ⟨now, hmem, hle, hdelay, -⟩ := delay_of_receive hpc hread hq h rfl
    exact ⟨_, hq, now, hmem, hle, hdelay⟩
  | pollError hpc herror =>
    rw [Event.received, if_neg fun hread => Poller.readable_not_error hread herror] at hd
    cases hd
  | idle hpc herror hread =>
    rw [Event.received, if_neg hread] at hd
    cases hd
  | dies => exact absurd rfl (hrunning _)
  | _ => cases hd

/-- **What a step does to the counters.** -/
theorem added_of_step (h : step n r e = some r') (hrunning : ∀ why, r'.pc ≠ .stopped why) :
    Added r.pc.opened [e] r.client.utility r'.client.utility := by
  cases step_effect h with
  | refused | pollFails | dies => exact absurd rfl (hrunning _)
  | enter | finish | wait | send | timeout => exact .nothing rfl rfl
  | @leave now startSending hpc hmay utility =>
    unfold step at h
    rw [hpc] at h
    dsimp only at h
    rw [if_neg hmay] at h
    obtain rfl : r.client.utility.sendingDuration (now - startSending) = utility :=
      congrArg (·.client.utility) (Option.some.inj h)
    rw [hpc]
    exact .duration startSending now r.client.utility
  | pollError hpc herror =>
    refine .nothing rfl ?_
    rw [Event.delay, Event.received, if_neg fun hread => Poller.readable_not_error hread herror]
    rfl
  | idle hpc herror hread =>
    refine .nothing rfl ?_
    rw [Event.delay, Event.received, if_neg hread]
    rfl
  | @receive revents d q clock client hpc hread hq hreceived =>
    obtain ⟨now, -, -, hdelay, hutility⟩ := delay_of_receive hpc hread hq h rfl
    have hutility : client.utility = r.client.utility.counted (now - q.echoReplyTimestamp) :=
      hutility
    show Added r.pc.opened _ r.client.utility client.utility
    rw [hutility]
    exact .delay rfl hdelay

/-- A client that runs has run. -/
theorem running_of_exec {es : List Event} (hrun : exec (step n) r es = some r')
    (hrunning : ∀ why, r'.pc ≠ .stopped why) : ∀ why, r.pc ≠ .stopped why := by
  cases es with
  | nil =>
    obtain rfl := Option.some.inj hrun
    exact hrunning
  | cons e es =>
    rw [Transition.exec_cons] at hrun
    obtain ⟨m, hstep, -⟩ := Option.bind_eq_some_iff.mp hrun
    exact (step_effect hstep).not_stopped

theorem added_of_exec {es : List Event} : ∀ {r r' : ClientRun}, exec (step n) r es = some r' →
    (∀ why, r'.pc ≠ .stopped why) → Added r.pc.opened es r.client.utility r'.client.utility := by
  induction es with
  | nil =>
    intro r r' hrun hrunning
    obtain rfl := Option.some.inj hrun
    simp [Added, sendings, delays]
  | cons e es ih =>
    intro r r' hrun hrunning
    rw [Transition.exec_cons] at hrun
    obtain ⟨m, hstep, hrest⟩ := Option.bind_eq_some_iff.mp hrun
    have hm := running_of_exec hrest hrunning
    have hrest := ih hrest hrunning
    rw [opened_of_step (step_effect hstep) hm] at hrest
    exact (added_of_step hstep hm).cons hrest

end Step

/-! ### Visits of the inner loop -/

/-- A sum in `uint64_t`, which may wrap. -/
theorem toNat_sum_le (l : List UInt64) : l.sum.toNat ≤ (l.map UInt64.toNat).sum := by
  induction l with
  | nil => exact Nat.le_refl 0
  | cons a l ih =>
    rw [List.map_cons, List.sum_cons, List.sum_cons, UInt64.toNat_add]
    exact (Nat.mod_le _ _).trans (Nat.add_le_add_left ih _)

/-- **The visits of the inner loop do not overlap**: together they take no longer than the clock
shows, from the time when the loop was entered that the client is in. -/
theorem sum_sendings_le {last : ℕ} {es : List Event} : ∀ {opened : Option UInt64} {now : ℕ},
    (es.flatMap Event.readings).Pairwise (· ≤ ·) →
    (∀ b ∈ es.flatMap Event.readings, now ≤ b.toNat ∧ b.toNat ≤ last) → now ≤ last →
    (∀ a ∈ opened, a.toNat ≤ now) →
    ((sendings opened es).map UInt64.toNat).sum + opened.elim now UInt64.toNat ≤ last := by
  induction es with
  | nil =>
    intro opened now _ _ hnow hopened
    cases opened with
    | none => simpa [sendings] using hnow
    | some a => simpa [sendings] using le_trans (hopened a rfl) hnow
  | cons e es ih =>
    intro opened now hclock hbounds hnow hopened
    rw [List.flatMap_cons] at hclock hbounds
    obtain ⟨-, hrest, hcross⟩ := List.pairwise_append.mp hclock
    have hbounds' : ∀ b ∈ es.flatMap Event.readings, now ≤ b.toNat ∧ b.toNat ≤ last :=
      fun b hb => hbounds b (List.mem_append_right _ hb)
    -- the events after a reading come no earlier
    have hlater : ∀ a ∈ e.readings, ∀ b ∈ es.flatMap Event.readings,
        a.toNat ≤ b.toNat ∧ b.toNat ≤ last := fun a ha b hb =>
      ⟨UInt64.le_iff_toNat_le.mp (hcross a ha b hb), (hbounds' b hb).2⟩
    cases e with
    | enter startSending =>
      obtain ⟨hge, hle⟩ := hbounds startSending (List.mem_append_left _ List.mem_cons_self)
      have hsum : ((sendings (some startSending) es).map UInt64.toNat).sum + startSending.toNat
          ≤ last :=
        ih hrest (hlater startSending List.mem_cons_self) hle
          fun a ha => by rw [← Option.some.inj ha]
      show ((sendings (some startSending) es).map UInt64.toNat).sum + _ ≤ last
      cases opened with
      | none => exact (Nat.add_le_add_left hge _).trans hsum
      | some a => exact (Nat.add_le_add_left ((hopened a rfl).trans hge) _).trans hsum
    | leave left =>
      obtain ⟨hge, hle⟩ := hbounds left (List.mem_append_left _ List.mem_cons_self)
      have hsum : ((sendings none es).map UInt64.toNat).sum + left.toNat ≤ last :=
        ih hrest (hlater left List.mem_cons_self) hle fun a ha => by cases ha
      cases opened with
      | none => exact (Nat.add_le_add_left hge _).trans hsum
      | some a =>
        have hale : a.toNat ≤ left.toNat := (hopened a rfl).trans hge
        have hvisit : (left - a).toNat = left.toNat - a.toNat :=
          UInt64.toNat_sub_of_le _ _ (UInt64.le_iff_toNat_le.mpr hale)
        show (left - a).toNat + ((sendings none es).map UInt64.toNat).sum + a.toNat ≤ last
        omega
    | _ => exact ih hrest hbounds' hnow hopened

section Run

variable [Platform] {n : UInt64}

/-- Each reception in a run of a client that was not stopped has a delay. -/
theorem delay_of_exec {es : List Event} : ∀ {r r' : ClientRun}, exec (step n) r es = some r' →
    (∀ why, r'.pc ≠ .stopped why) → ∀ e ∈ es, ∀ d, e.received = some d →
      ∃ q, d.packet = .ok q ∧ ∃ now ∈ e.clock, q.echoReplyTimestamp ≤ now ∧
        e.delay = some (now - q.echoReplyTimestamp) := by
  induction es with
  | nil =>
    intro r r' _ _ e he
    cases he
  | cons e es ih =>
    intro r r' hrun hrunning e' he'
    rw [Transition.exec_cons] at hrun
    obtain ⟨m, hstep, hrest⟩ := Option.bind_eq_some_iff.mp hrun
    rcases List.mem_cons.mp he' with rfl | hmem
    · exact fun d hd => delay_of_received hstep (running_of_exec hrest hrunning) hd
    · exact ih hrest hrunning e' hmem

/-- There is a delay for each reception. -/
theorem length_delays {r r' : ClientRun} {es : List Event} (hrun : exec (step n) r es = some r')
    (hrunning : ∀ why, r'.pc ≠ .stopped why) :
    (delays es).length = es.countP (·.received.isSome) := by
  rw [delays, List.length_filterMap_eq_countP]
  refine List.countP_congr fun e he => ⟨fun h => ?_, fun h => ?_⟩
  · obtain ⟨x, hx⟩ := Option.isSome_iff_exists.mp h
    obtain ⟨d, hd, -⟩ := Option.bind_eq_some_iff.mp hx
    rw [hd]
    rfl
  · obtain ⟨d, hd⟩ := Option.isSome_iff_exists.mp h
    obtain ⟨q, -, now, -, -, hsome⟩ := delay_of_exec hrun hrunning e he d hd
    rw [hsome]
    rfl

/-- **The counters are sums over the run.**  As long as the client runs, whatever it receives: the
time sending is the sum of the visits of the inner loop, the delay is the sum over the
acknowledgements of the times from the stamp that came back to the last reading, none of which
wraps, and each acknowledgement was counted. -/
theorem statistics_account {addr : Address} {sock : Socket} {whiskers : WhiskerTree} {track : Bool}
    {es : List Event} {r : ClientRun}
    (hrun : exec (step n) (start addr sock whiskers track) es = some r)
    (hrunning : ∀ why, r.pc ≠ .stopped why) :
    r.client.utility.timeSending = (sendings none es).sum ∧
      r.client.utility.packetsReceived = UInt64.ofNat (es.countP (·.received.isSome)) ∧
      r.client.utility.totalDelay = (delays es).sum ∧
      ∀ e ∈ es, ∀ d, e.received = some d →
        ∃ q, d.packet = .ok q ∧ ∃ now ∈ e.clock, q.echoReplyTimestamp ≤ now ∧
          e.delay = some (now - q.echoReplyTimestamp) := by
  obtain ⟨whiskers', theWindow, intersend, -, hc⟩ := client_start addr sock whiskers track
  obtain ⟨htime, hpackets, htotal⟩ := added_of_exec hrun hrunning
  have hopened : (start addr sock whiskers track).pc.opened = none := by
    rcases start_cases addr sock whiskers track with ⟨why, hstart⟩ | ⟨c, -, hstart⟩ <;>
      rw [hstart] <;> rfl
  rw [hc] at htime hpackets htotal
  rw [hopened] at htime
  refine ⟨?_, ?_, ?_, delay_of_exec hrun hrunning⟩
  · rw [htime]
    exact UInt64.zero_add _
  · rw [hpackets, length_delays hrun hrunning]
    exact UInt64.zero_add _
  · rw [htotal]
    exact UInt64.zero_add _

end Run

/-- A packet that leaves at 5 and comes back at 10, after seven milliseconds in the inner loop. -/
theorem statistics_account_of_one : letI := gcc48
    ∃ (es : List Event) (r : ClientRun),
      exec (step 2) (start ⟨1, 9⟩ ⟨⟨2, 8⟩⟩ .init true) es = some r ∧
      delays es = [5] ∧ sendings none es = [7] ∧
      r.client.utility.timeSending = 7 ∧ r.client.utility.totalDelay = 5 := by
  let _ := gcc48
  let d : Datagram :=
    ⟨⟨1, 9⟩, ⟨2, 8⟩, ((Packet.make ⟨1, 9⟩ 0 0 1 []).setEchoReplyTimestamp 5).str⟩
  let es : List Event :=
    [.enter 1, .send 5 5 true, .leave 8, .poll (.ready [pollIn]) (some d) [9, 10]]
  have hexec : (exec (step 2) (start ⟨1, 9⟩ ⟨⟨2, 8⟩⟩ .init true) es).map (·.pc)
      = some .outer := by
    decide +kernel
  have hdelays : delays es = [5] := by decide +kernel
  have hsendings : sendings none es = [7] := by decide +kernel
  obtain ⟨r, hrun, hpc⟩ := Option.map_eq_some_iff.mp hexec
  obtain ⟨htime, -, htotal, -⟩ := statistics_account hrun
    fun why => by rw [hpc]; exact Pc.noConfusion
  rw [hsendings] at htime
  rw [hdelays] at htotal
  exact ⟨es, r, hrun, hdelays, hsendings, htime, htotal⟩

end ClientRun

/-! ### The statistics of a transfer -/

namespace Utility

variable {u : Utility}

/-- **The utility in one logarithm**: it grows with the square of the packets and falls with the
time that was counted and with the delay. -/
theorem utility_eq (htime : u.timeSending ≠ 0) (hpackets : u.packetsReceived ≠ 0)
    (hdelay : u.totalDelay ≠ 0) :
    u.utility = (Real.logb 2 (100 * u.packetsReceived.toNat ^ 2
      / (u.timeSending.toNat * u.totalDelay.toNat)) : ℝ) := by
  have htime' : (u.timeSending.toNat : ℝ) ≠ 0 := by
    exact_mod_cast fun h => htime (UInt64.toNat_inj.mp h)
  have hpackets' : (u.packetsReceived.toNat : ℝ) ≠ 0 := by
    exact_mod_cast fun h => hpackets (UInt64.toNat_inj.mp h)
  have hdelay' : (u.totalDelay.toNat : ℝ) ≠ 0 := by
    exact_mod_cast fun h => hdelay (UInt64.toNat_inj.mp h)
  have hthroughput : u.averageThroughput = u.packetsReceived.toNat / u.timeSending.toNat :=
    if_neg htime
  have haverage : u.averageDelay = u.totalDelay.toNat / u.packetsReceived.toNat := if_neg hpackets
  have hne : u.averageThroughput ≠ 0 := by
    rw [hthroughput]
    exact div_ne_zero (by exact_mod_cast hpackets') (by exact_mod_cast htime')
  have hne' : u.averageDelay / 100 ≠ 0 := by
    rw [haverage]
    refine div_ne_zero (div_ne_zero ?_ ?_) (by norm_num)
    · exact_mod_cast hdelay'
    · exact_mod_cast hpackets'
  rw [utility, if_neg htime, if_neg hpackets, log2, log2, if_neg hne, if_neg hne', ← EReal.coe_sub]
  have hcast : (u.averageThroughput : ℝ) ≠ 0 := by exact_mod_cast hne
  have hcast' : ((u.averageDelay / 100 : DataType) : ℝ) ≠ 0 := by exact_mod_cast hne'
  rw [← Real.logb_div hcast hcast', hthroughput, haverage]
  congr 2
  push_cast
  field_simp

/-- With a shorter time counted the throughput is higher. -/
theorem le_averageThroughput {span : ℕ} (htime : u.timeSending ≠ 0)
    (hspan : u.timeSending.toNat ≤ span) :
    (u.packetsReceived.toNat : DataType) / span ≤ u.averageThroughput := by
  have hpos : 0 < u.timeSending.toNat :=
    Nat.pos_of_ne_zero fun h => htime (UInt64.toNat_inj.mp h)
  rw [averageThroughput, if_neg htime]
  refine div_le_div_of_nonneg_left (Nat.cast_nonneg _) ?_ ?_
  · exact_mod_cast hpos
  · exact_mod_cast hspan

/-- A bound of the delays is one of their average. -/
theorem averageDelay_le {span : ℕ} (hdelay : u.totalDelay.toNat ≤ u.packetsReceived.toNat * span) :
    u.averageDelay ≤ span := by
  rw [averageDelay]
  split
  · exact Nat.cast_nonneg _
  · rename_i hpackets
    have hpos : 0 < u.packetsReceived.toNat :=
      Nat.pos_of_ne_zero fun h => hpackets (UInt64.toNat_inj.mp h)
    rw [div_le_iff₀ (by exact_mod_cast hpos), mul_comm]
    exact_mod_cast hdelay

/-- **A lower bound of the utility** in the time between two readings of the clock. -/
theorem le_utility {span : ℕ} (htime : u.timeSending ≠ 0) (hpackets : u.packetsReceived ≠ 0)
    (hspan : u.timeSending.toNat ≤ span)
    (hdelay : u.totalDelay.toNat ≤ u.packetsReceived.toNat * span) :
    ((Real.logb 2 (100 * u.packetsReceived.toNat / span ^ 2) : ℝ) : EReal) ≤ u.utility := by
  have hT : (0 : ℝ) < u.timeSending.toNat := by
    exact_mod_cast Nat.pos_of_ne_zero fun h => htime (UInt64.toNat_inj.mp h)
  have hP : (0 : ℝ) < u.packetsReceived.toNat := by
    exact_mod_cast Nat.pos_of_ne_zero fun h => hpackets (UInt64.toNat_inj.mp h)
  have hL : (u.timeSending.toNat : ℝ) ≤ span := by exact_mod_cast hspan
  have hLpos : (0 : ℝ) < span := hT.trans_le hL
  by_cases hzero : u.totalDelay = 0
  · -- without a delay the utility is infinite
    have haverage : u.averageDelay / 100 = 0 := by
      rw [averageDelay, if_neg hpackets, hzero]
      norm_num
    have hthroughput : u.averageThroughput ≠ 0 := by
      rw [averageThroughput, if_neg htime]
      exact div_ne_zero (by exact_mod_cast hP.ne') (by exact_mod_cast hT.ne')
    rw [utility, if_neg htime, if_neg hpackets, haverage, log2, log2, if_pos rfl,
      if_neg hthroughput, EReal.coe_sub_bot]
    exact le_top
  · rw [utility_eq htime hpackets hzero, EReal.coe_le_coe_iff]
    have hD : (0 : ℝ) < u.totalDelay.toNat := by
      exact_mod_cast Nat.pos_of_ne_zero fun h => hzero (UInt64.toNat_inj.mp h)
    have hDle : (u.totalDelay.toNat : ℝ) ≤ u.packetsReceived.toNat * span := by
      exact_mod_cast hdelay
    refine Real.logb_le_logb_of_le (by norm_num) (by positivity) ?_
    rw [div_le_div_iff₀ (by positivity) (by positivity)]
    calc 100 * (u.packetsReceived.toNat : ℝ) * (u.timeSending.toNat * u.totalDelay.toNat)
        ≤ 100 * u.packetsReceived.toNat * (span * (u.packetsReceived.toNat * span)) := by gcongr
      _ = 100 * u.packetsReceived.toNat ^ 2 * span ^ 2 := by ring

end Utility

namespace System

section Runs

variable [Platform] {n : UInt64} {server : Socket} {addr : Address} {sock : Socket}
  {t : WhiskerTree} {track : Bool} {es : List Event} {s : System}

omit [Platform] in
theorem clientReadings_eq (es : List Event) :
    clientReadings es = (clientEvents es).flatMap ClientRun.Event.readings := by
  induction es with
  | nil => rfl
  | cons e es ih =>
    cases e with
    | client e =>
      rw [clientReadings_cons, ih]
      rfl
    | serve => exact ih

omit [Platform] in
theorem receptions_eq (es : List Event) :
    receptions es = (clientEvents es).countP (·.received.isSome) := by
  rw [receptions, clientEvents, List.countP_filterMap]
  refine List.countP_congr fun e _ => ?_
  cases e <;> rfl

/-- What is added to the delay is a time between two readings of the client's clock. -/
theorem delay_between
    (hrun : exec (step n server) (start addr sock t track) es = some s) (hrunning : s.Running) :
    ∀ x ∈ ClientRun.delays (clientEvents es), ∃ a ∈ clientReadings es, ∃ b ∈ clientReadings es,
      x.toNat = b.toNat - a.toNat := by
  intro x hx
  obtain ⟨e, he, hx⟩ := List.mem_filterMap.mp hx
  obtain ⟨d, hd, -⟩ := Option.bind_eq_some_iff.mp hx
  obtain ⟨q, hq, now, hnow, hle, hdelay⟩ :=
    ClientRun.delay_of_exec (exec_clientEvents hrun) hrunning e he d hd
  obtain rfl : now - q.echoReplyTimestamp = x := Option.some.inj (hdelay.symm.trans hx)
  refine ⟨q.echoReplyTimestamp, ?_, now, ?_, UInt64.toNat_sub_of_le _ _ hle⟩
  · -- the stamp that came back is one of the client's
    obtain ⟨e', he', hclient⟩ := List.mem_filterMap.mp he
    cases e' with
    | serve => cases hclient
    | client e' =>
      obtain rfl := Option.some.inj hclient
      obtain ⟨before, after, rfl⟩ := List.append_of_mem he'
      obtain ⟨m, hbefore, hrest⟩ := Transition.exec_append_eq_some.mp hrun
      rw [Transition.exec_cons] at hrest
      obtain ⟨m', hstep, -⟩ := Option.bind_eq_some_iff.mp hrest
      have hmem : d ∈ m.replies := (step_effect hstep).of_client.1 d hd
      obtain ⟨request, q', hstamped, hq'⟩ := exists_stamped_of_reply hbefore hmem
      obtain rfl : q = q' := Except.ok.inj (hq.symm.trans hq')
      rw [clientReadings_append]
      exact List.mem_append_left _ hstamped.mem_clientReadings
  · rw [clientReadings_eq]
    refine List.mem_flatMap.mpr ⟨e, he, ?_⟩
    rw [ClientRun.Event.readings_of_received hd]
    exact hnow

/-- **What is printed flatters.**  When the client's clock does not run backwards and shows times
from `first` to `last`, the printed throughput counts every acknowledgement, duplicates included,
but only the time in the inner loop: it is at least the acknowledgements divided by the time that
passed.  No average delay is longer than that time, and so the utility has a lower bound. -/
theorem statistics_bound
    (hrun : exec (step n server) (start addr sock t track) es = some s) (hrunning : s.Running)
    (hclock : (clientReadings es).Pairwise (· ≤ ·)) {first last : ℕ} (hspan : first ≤ last)
    (hbounds : ∀ b ∈ clientReadings es, first ≤ b.toNat ∧ b.toNat ≤ last)
    (hcount : receptions es < 2 ^ 64) :
    s.run.client.utility.packetsReceived.toNat = receptions es ∧
      s.run.client.utility.timeSending.toNat ≤ last - first ∧
      s.run.client.utility.averageDelay ≤ (last - first : ℕ) ∧
      (s.run.client.utility.timeSending ≠ 0 →
        (receptions es : DataType) / (last - first : ℕ) ≤ s.run.client.utility.averageThroughput ∧
        (0 < receptions es →
          ((Real.logb 2 (100 * receptions es / (last - first : ℕ) ^ 2) : ℝ) : EReal)
            ≤ s.run.client.utility.utility)) := by
  have hclient := exec_clientEvents hrun
  obtain ⟨htime, hpackets, htotal, -⟩ := ClientRun.statistics_account hclient hrunning
  have hpackets' : s.run.client.utility.packetsReceived.toNat = receptions es := by
    rw [hpackets, ← receptions_eq, UInt64.toNat_ofNat_of_lt' hcount]
  -- the visits of the inner loop do not overlap
  have hvisits : ((ClientRun.sendings none (clientEvents es)).map UInt64.toNat).sum + first
      ≤ last := by
    rw [clientReadings_eq] at hclock hbounds
    exact ClientRun.sum_sendings_le hclock hbounds hspan fun a ha => by cases ha
  have htime' : s.run.client.utility.timeSending.toNat ≤ last - first := by
    rw [htime]
    exact (ClientRun.toNat_sum_le _).trans (Nat.le_sub_of_add_le hvisits)
  have htotal' : s.run.client.utility.totalDelay.toNat
      ≤ s.run.client.utility.packetsReceived.toNat * (last - first) := by
    have hlength : ((ClientRun.delays (clientEvents es)).map UInt64.toNat).length
        = receptions es := by
      rw [List.length_map, ClientRun.length_delays hclient hrunning, receptions_eq]
    rw [htotal, hpackets', ← hlength]
    refine (ClientRun.toNat_sum_le _).trans (List.sum_le_card_nsmul _ _ fun y hy => ?_)
    obtain ⟨x, hx, rfl⟩ := List.mem_map.mp hy
    obtain ⟨a, ha, b, hb, heq⟩ := delay_between hrun hrunning x hx
    have hge := (hbounds a ha).1
    have hle := (hbounds b hb).2
    omega
  refine ⟨hpackets', htime', Utility.averageDelay_le htotal', fun hne => ⟨?_, fun hpos => ?_⟩⟩
  · rw [← hpackets']
    exact Utility.le_averageThroughput hne htime'
  · have hpackets0 : s.run.client.utility.packetsReceived ≠ 0 := by
      intro h
      rw [h] at hpackets'
      exact hpos.ne hpackets'
    rw [← hpackets']
    exact Utility.le_utility hne hpackets0 htime' htotal'

end Runs

/-- A packet that leaves at 5 and comes back at 10. -/
theorem statistics_bound_of_one : letI := gcc48
    ∃ s : System, exec (step 1 ⟨⟨1, 9⟩⟩) (start ⟨1, 9⟩ ⟨⟨2, 8⟩⟩ .init true) oneRoundTrip = some s ∧
      (1 : DataType) / 9 ≤ s.run.client.utility.averageThroughput := by
  let _ := gcc48
  have hexec : (exec (step 1 ⟨⟨1, 9⟩⟩) (start ⟨1, 9⟩ ⟨⟨2, 8⟩⟩ .init true) oneRoundTrip).map
      (fun s => (s.run.pc, s.run.client.utility.timeSending)) = some (.outer, 7) := by
    decide +kernel
  obtain ⟨s, hrun, hs⟩ := Option.map_eq_some_iff.mp hexec
  obtain ⟨hpc, htime⟩ := Prod.mk.inj hs
  have hone : receptions oneRoundTrip = 1 := by decide +kernel
  have hbounds : ∀ b ∈ clientReadings oneRoundTrip, 1 ≤ b.toNat ∧ b.toNat ≤ 10 := by
    intro b hb
    have hb : b ∈ [(1 : UInt64), 5, 5, 8, 9, 10] := hb
    fin_cases hb <;> decide
  obtain ⟨-, -, -, hthroughput⟩ := statistics_bound hrun
    (fun why => by rw [hpc]; exact Pc.noConfusion) (by decide +kernel) (by norm_num) hbounds
    (by rw [hone]; norm_num)
  have hle := (hthroughput (by rw [htime]; decide)).1
  rw [hone] at hle
  exact ⟨s, hrun, by simpa using hle⟩

end System

end SendReceive
