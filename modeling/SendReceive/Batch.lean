import SendReceive.Memory

/-!
# Receiving packets in batches

The memory can be given the packets of a batch at once.  The sources write the update out a
second time for this, in the body of a loop.  The two do the same operations in the same order, and
so they agree in any arithmetic: over exact rationals and the infinite quotients of a divisor of
zero, and over the doubles of a machine with all their roundings.

* `MemoryOf.packetsReceived` — the update for a batch, statement by statement.
* `MemoryOf.oneByOne` — the update for one packet, called for each packet of a batch.
* `MemoryOf.FailsAt` — where a computation over a batch comes to an end.
* `MemoryOf.batch_agrees` — **the two agree**, and only the packets of the flow count.
-/

namespace SendReceive

namespace MemoryOf

open Arithmetic

variable {α ρ : Type} [Add α] [Sub α] [Mul α] [Arithmetic α ρ]

/-- `Memory::packets_received`. -/
def packetsReceived (m : MemoryOf α ρ) (packets : List Packet) (flowId : UInt32) (clock : Clock) :
    Except Stop (MemoryOf α ρ × Clock) :=
  match packets with
  | [] => .ok (m, clock)
  | x :: packets =>
    if x.flowId ≠ flowId.toUInt64 then packetsReceived m packets flowId clock
    else do
      let (now, clock) ← timestamp clock
      let receivedTime : α := ofUInt64 now
      let rtt := receivedTime - ofUInt64 x.echoReplyTimestamp
      if isZero m.lastTickSent || isZero m.lastTickReceived then
        let m := { m with lastTickSent := ofUInt64 x.echoReplyTimestamp }
        let m := { m with lastTickReceived := receivedTime }
        let m := { m with minRtt := rtt }
        packetsReceived m packets flowId clock
      else
        let m := { m with
          recSendEwma := (one - alpha) * m.recSendEwma
            + alpha * (ofUInt64 x.echoReplyTimestamp - m.lastTickSent) }
        let m := { m with
          recRecEwma := (one - alpha) * m.recRecEwma + alpha * (receivedTime - m.lastTickReceived) }
        let m := { m with
          slowRecRecEwma := (one - slowAlpha) * m.slowRecRecEwma
            + slowAlpha * (receivedTime - m.lastTickReceived) }
        let m := { m with lastTickSent := ofUInt64 x.echoReplyTimestamp }
        let m := { m with lastTickReceived := receivedTime }
        let m := { m with minRtt := min m.minRtt rtt }
        let m := { m with rttRatio := div rtt m.minRtt }
        if geOne (α := α) m.rttRatio then packetsReceived m packets flowId clock
        else .error .assertFailed

/-- `Memory::packet_received` for each packet in order. -/
def oneByOne (m : MemoryOf α ρ) (packets : List Packet) (flowId : UInt32) (clock : Clock) :
    Except Stop (MemoryOf α ρ × Clock) :=
  packets.foldlM (fun s packet => s.1.packetReceived packet flowId s.2) (m, clock)

/-- The computation `run` over a batch stops, in the way `why`, at the packet with the index `i`:
it comes through the packets before, and not through this one. -/
def FailsAt (run : List Packet → Except Stop (MemoryOf α ρ × Clock)) (packets : List Packet) (i : ℕ)
    (why : Stop) : Prop :=
  i < packets.length ∧ (∃ s, run (packets.take i) = .ok s) ∧
    run (packets.take (i + 1)) = .error why

variable {m : MemoryOf α ρ} {flowId : UInt32} {clock : Clock}

theorem oneByOne_cons (p : Packet) (packets : List Packet) :
    m.oneByOne (p :: packets) flowId clock
      = m.packetReceived p flowId clock >>= fun s => s.1.oneByOne packets flowId s.2 := by
  rw [oneByOne, List.foldlM_cons]
  rfl

/-- **One turn of the loop** is the update for one packet. -/
theorem packetsReceived_cons (p : Packet) (packets : List Packet) :
    m.packetsReceived (p :: packets) flowId clock
      = m.packetReceived p flowId clock >>= fun s => s.1.packetsReceived packets flowId s.2 := by
  rw [packetsReceived]
  by_cases hflow : p.flowId = flowId.toUInt64
  · rw [if_neg (not_not.mpr hflow), packetReceived, if_pos hflow]
    cases clock with
    | nil => rfl
    | cons now clock =>
      simp only [timestamp_cons, ok_bind]
      -- the first packet sets the ticks, a further one moves the averages
      by_cases hfirst : isZero m.lastTickSent || isZero m.lastTickReceived
      · rw [if_pos hfirst, if_pos hfirst]
        rfl
      · rw [if_neg hfirst, if_neg hfirst]
        split <;> rfl
  · rw [if_pos hflow, packetReceived_of_flowId_ne hflow, ok_bind]

/-- **The loop computes the updates one by one.** -/
theorem packetsReceived_eq_oneByOne (packets : List Packet) : ∀ (m : MemoryOf α ρ) (clock : Clock),
    m.packetsReceived packets flowId clock = m.oneByOne packets flowId clock := by
  induction packets with
  | nil => intro m clock; rfl
  | cons p packets ih =>
    intro m clock
    rw [packetsReceived_cons, oneByOne_cons]
    exact congrArg _ (funext fun s => ih s.1 s.2)

/-- Packets of other flows are skipped. -/
theorem packetsReceived_filter (packets : List Packet) : ∀ (m : MemoryOf α ρ) (clock : Clock),
    m.packetsReceived (packets.filter (·.flowId = flowId.toUInt64)) flowId clock
      = m.packetsReceived packets flowId clock := by
  induction packets with
  | nil => intro m clock; rfl
  | cons p packets ih =>
    intro m clock
    by_cases hflow : p.flowId = flowId.toUInt64
    · rw [List.filter_cons_of_pos (by simpa using hflow), packetsReceived_cons,
        packetsReceived_cons]
      exact congrArg _ (funext fun s => ih s.1 s.2)
    · rw [List.filter_cons_of_neg (by simpa using hflow), ih, packetsReceived_cons,
        packetReceived_of_flowId_ne hflow, ok_bind]

/-- An update reads the clock when the packet is one of the flow. -/
theorem readings_packetReceived {p : Packet} {m' : MemoryOf α ρ} {rest : Clock}
    (h : m.packetReceived p flowId clock = .ok (m', rest)) :
    ∃ readings, clock = readings ++ rest ∧
      readings.length = if p.flowId = flowId.toUInt64 then 1 else 0 := by
  by_cases hflow : p.flowId = flowId.toUInt64
  · rw [packetReceived, if_pos hflow] at h
    obtain ⟨⟨now, clock'⟩, hclock, h⟩ := bind_eq_ok.mp h
    have hrest : rest = clock' := by
      dsimp only at h
      split at h
      · exact (Prod.mk.inj (Except.ok.inj h)).2.symm
      · split at h
        · exact (Prod.mk.inj (Except.ok.inj h)).2.symm
        · cases h
    cases clock with
    | nil => cases hclock
    | cons now clock =>
      obtain ⟨rfl, rfl⟩ := Prod.mk.inj (Except.ok.inj hclock)
      exact ⟨[now], by rw [hrest]; rfl, (if_pos hflow).symm⟩
  · rw [packetReceived_of_flowId_ne hflow] at h
    obtain ⟨-, rfl⟩ := Prod.mk.inj (Except.ok.inj h)
    exact ⟨[], rfl, (if_neg hflow).symm⟩

/-- A batch reads the clock once for each packet of the flow. -/
theorem readings_packetsReceived (packets : List Packet) :
    ∀ {m m' : MemoryOf α ρ} {clock rest : Clock},
      m.packetsReceived packets flowId clock = .ok (m', rest) →
        ∃ readings, clock = readings ++ rest ∧
          readings.length = packets.countP (·.flowId = flowId.toUInt64) := by
  induction packets with
  | nil =>
    intro m m' clock rest h
    obtain ⟨-, rfl⟩ := Prod.mk.inj (Except.ok.inj h)
    exact ⟨[], rfl, rfl⟩
  | cons p packets ih =>
    intro m m' clock rest h
    rw [packetsReceived_cons] at h
    obtain ⟨⟨m₁, clock₁⟩, hp, hrest⟩ := bind_eq_ok.mp h
    obtain ⟨first, rfl, hfirst⟩ := readings_packetReceived hp
    obtain ⟨readings, rfl, hlength⟩ := ih hrest
    refine ⟨first ++ readings, (List.append_assoc _ _ _).symm, ?_⟩
    rw [List.length_append, hfirst, hlength, List.countP_cons, Nat.add_comm]
    simp

/-! ### Where a batch fails -/

theorem oneByOne_append (l l' : List Packet) :
    m.oneByOne (l ++ l') flowId clock
      = m.oneByOne l flowId clock >>= fun s => s.1.oneByOne l' flowId s.2 := by
  rw [oneByOne, List.foldlM_append]
  rfl

/-- What stopped a part of a batch stops the batch. -/
theorem oneByOne_eq_error_of_take {packets : List Packet} {i : ℕ} {why : Stop}
    (h : m.oneByOne (packets.take i) flowId clock = .error why) :
    m.oneByOne packets flowId clock = .error why := by
  rw [← List.take_append_drop i packets, oneByOne_append, h, error_bind]

/-- A batch that stops does so at one of its packets. -/
theorem exists_failsAt {why : Stop} (packets : List Packet)
    (h : m.oneByOne packets flowId clock = .error why) :
    ∃ i, FailsAt (m.oneByOne · flowId clock) packets i why := by
  induction packets using List.reverseRecOn with
  | nil => cases h
  | append_singleton packets p ih =>
    cases hbefore : m.oneByOne packets flowId clock with
    | error why' =>
      -- the batch stopped before its last packet
      rw [oneByOne_append, hbefore, error_bind] at h
      obtain ⟨i, hi, hok, hwhy⟩ := ih (hbefore.trans h)
      refine ⟨i, ?_, ?_, ?_⟩
      · rw [List.length_append]
        omega
      · rwa [List.take_append_of_le_length (by omega)]
      · rwa [List.take_append_of_le_length (by omega)]
    | ok s =>
      refine ⟨packets.length, ?_, ⟨s, ?_⟩, ?_⟩
      · simp
      · simpa using hbefore
      · rwa [List.take_of_length_le (by simp)]

/-- **Batches and single packets agree**: the loop makes the same memory as the update for one
packet does in order, takes the same readings of the clock, one for each packet of the flow, and
stops at the same packet for the same reason.  Packets of other flows change nothing: the result
is that of the packets of the flow. -/
theorem batch_agrees (m : MemoryOf α ρ) (flowId : UInt32) (packets : List Packet) (clock : Clock) :
    m.packetsReceived packets flowId clock = m.oneByOne packets flowId clock ∧
    (∀ m' rest, m.packetsReceived packets flowId clock = .ok (m', rest) →
      ∃ readings, clock = readings ++ rest ∧
        readings.length = packets.countP (·.flowId = flowId.toUInt64)) ∧
    (∀ why, m.packetsReceived packets flowId clock = .error why ↔
      ∃ i, FailsAt (m.packetsReceived · flowId clock) packets i why) ∧
    (∀ i why, FailsAt (m.packetsReceived · flowId clock) packets i why ↔
      FailsAt (m.oneByOne · flowId clock) packets i why) ∧
    ((∀ p ∈ packets, p.flowId ≠ flowId.toUInt64) →
      m.packetsReceived packets flowId clock = .ok (m, clock)) ∧
    m.packetsReceived packets flowId clock
      = m.packetsReceived (packets.filter (·.flowId = flowId.toUInt64)) flowId clock := by
  have hagree : (m.packetsReceived · flowId clock) = (m.oneByOne · flowId clock) :=
    funext fun packets => packetsReceived_eq_oneByOne packets m clock
  refine ⟨packetsReceived_eq_oneByOne _ _ _, ?_, ?_, ?_, ?_, (packetsReceived_filter _ _ _).symm⟩
  · intro m' rest h
    exact readings_packetsReceived packets h
  · intro why
    rw [hagree, packetsReceived_eq_oneByOne]
    constructor
    · exact exists_failsAt packets
    · rintro ⟨i, -, -, hwhy⟩
      exact oneByOne_eq_error_of_take hwhy
  · intro i why
    rw [hagree]
  · intro hother
    rw [← packetsReceived_filter, List.filter_eq_nil_iff.mpr (by simpa using hother)]
    rfl

/-- A packet of a flow that echoes a timestamp. -/
def echoing (flowId echo : UInt64) : Packet :=
  ⟨⟨0, 0⟩, ⟨flowId⟩, ⟨0⟩, ⟨0⟩, ⟨0⟩, ⟨echo⟩, [], ⟨0⟩⟩

/-- Packets of two flows.  The second one of the flow takes two milliseconds where the first took
none: its ratio is infinite, and both functions go on.  The third takes none, and both stop. -/
theorem batch_agrees_of_mixed :
    (∃ m, SenderMemory.init.packetsReceived [echoing 1 5, echoing 2 7, echoing 1 6, echoing 2 7] 1
          [5, 8, 9] = .ok (m, [9]) ∧
        SenderMemory.init.oneByOne [echoing 1 5, echoing 2 7, echoing 1 6, echoing 2 7] 1 [5, 8, 9]
          = .ok (m, [9]) ∧
        m.recSendEwma = 1 / 8 ∧ m.rttRatio = .infinity false) ∧
      FailsAt (SenderMemory.init.oneByOne · 1 [5, 8, 9])
        [echoing 1 5, echoing 2 7, echoing 1 6, echoing 2 7, echoing 1 9] 4 .assertFailed := by
  have hgoes : ∃ m, SenderMemory.init.packetsReceived
      [echoing 1 5, echoing 2 7, echoing 1 6, echoing 2 7] 1 [5, 8, 9] = .ok (m, [9]) ∧
      m.recSendEwma = 1 / 8 ∧ m.rttRatio = .infinity false :=
    ⟨⟨1 / 8, 3 / 8, .infinity false, 3 / 256, 6, 8, 0⟩, by decide +kernel⟩
  obtain ⟨m, hrun, hmoved⟩ := hgoes
  refine ⟨⟨m, hrun, ?_, hmoved⟩, ?_⟩
  · rw [← hrun]
    exact (batch_agrees _ _ _ _).1.symm
  · refine ((batch_agrees _ _ _ _).2.2.2.1 4 .assertFailed).mp ⟨by decide, ⟨(m, [9]), hrun⟩, ?_⟩
    decide +kernel

end MemoryOf

end SendReceive
