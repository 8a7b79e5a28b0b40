import SendReceive.Client
import Mathlib.Analysis.Convex.Basic
import Mathlib.Order.Bounds.Basic

/-!
# Sequences of acknowledgements

The memory of a sender over a whole sequence of acknowledgements of its flow, from the memory it
begins with.

The ratio it keeps is the last round-trip time divided by the smallest one so far.  The clock
counts milliseconds, so that a round trip can take no time at all; from then on the divisor is
zero, and the ratio is infinite or not a number.  When all round trips take at least a millisecond
the averages and the ratio stay in the domain of the default rule table, as long as the sequence
moves in steps shorter than its width.

## Main definitions

* `Memory.Arrival`, `SenderMemory.receiveAll` — packets that are received one after the other.
* `SenderMemory.RatioDefined` — the ratio is defined all along a sequence.
* `SenderMemory.Steady` — a sequence without reordering that moves in bounded steps.
* `Client.receiveAll` — the lookups a client makes along a sequence.

## Main results

* `SenderMemory.ratio_defined_iff` — **when the ratio is defined all along**.
* `Client.steady_inside` — **the memory stays inside the table**.
-/

namespace SendReceive

/-! ### One acknowledgement -/

namespace Memory

/-- A packet that is received at a time. -/
structure Arrival where
  packet : Packet
  now : UInt64

namespace Arrival

/-- The timestamp that the packet echoes. -/
def echo (a : Arrival) : ℕ := a.packet.echoReplyTimestamp.toNat

/-- The round-trip time. -/
def rtt (a : Arrival) : DataType := a.now.toNat - a.echo

/-- The packet is one of the flow, neither of its times is zero, and it was not received before
it was sent. -/
structure Timely (flowId : UInt32) (a : Arrival) : Prop where
  flow : a.packet.flowId = flowId.toUInt64
  echo_ne : a.echo ≠ 0
  now_ne : a.now.toNat ≠ 0
  echo_le : a.echo ≤ a.now.toNat

theorem Timely.rtt_nonneg {flowId : UInt32} {a : Arrival} (h : a.Timely flowId) : 0 ≤ a.rtt :=
  sub_nonneg.mpr (by exact_mod_cast h.echo_le)

/-- A packet of the flow that echoes a timestamp, and the time it is received. -/
def of (flowId : UInt32) (echo now : UInt64) : Arrival :=
  ⟨⟨⟨0, 0⟩, ⟨flowId.toUInt64⟩, ⟨0⟩, ⟨0⟩, ⟨0⟩, ⟨echo⟩, [], ⟨0⟩⟩, now⟩

theorem Timely.of {flowId : UInt32} {echo now : UInt64} (hecho : echo.toNat ≠ 0)
    (hle : echo.toNat ≤ now.toNat) : Timely flowId (of flowId echo now) where
  flow := rfl
  echo_ne := hecho
  now_ne := by
    show now.toNat ≠ 0
    omega
  echo_le := hle

end Arrival

end Memory

namespace SenderMemory

open Memory (Arrival alpha slowAlpha)

/-- The memory has received a packet. -/
def Started (m : SenderMemory) : Prop := m.lastTickSent ≠ 0 ∧ m.lastTickReceived ≠ 0

instance (m : SenderMemory) : Decidable m.Started := inferInstanceAs (Decidable (_ ∧ _))

/-- The memory after a first packet. -/
def first (m : SenderMemory) (a : Arrival) : SenderMemory :=
  { m with
    lastTickSent := a.echo
    lastTickReceived := a.now.toNat
    minRtt := a.rtt }

/-- The memory after a further packet. -/
def next (m : SenderMemory) (a : Arrival) : SenderMemory where
  recSendEwma := (1 - alpha) * m.recSendEwma + alpha * (a.echo - m.lastTickSent)
  recRecEwma := (1 - alpha) * m.recRecEwma + alpha * (a.now.toNat - m.lastTickReceived)
  slowRecRecEwma := (1 - slowAlpha) * m.slowRecRecEwma
    + slowAlpha * (a.now.toNat - m.lastTickReceived)
  lastTickSent := a.echo
  lastTickReceived := a.now.toNat
  minRtt := min m.minRtt a.rtt
  rttRatio := .div a.rtt (min m.minRtt a.rtt)

/-- `Memory::packet_received`, with one reading of the clock. -/
def receive (m : SenderMemory) (flowId : UInt32) (a : Arrival) : Except Stop SenderMemory :=
  (m.packetReceived a.packet flowId [a.now]).map Prod.fst

variable {m m' : SenderMemory} {flowId : UInt32} {a : Arrival}

/-- What a packet of the flow comes to, and the reading that it takes. -/
theorem packetReceived_of_flowId_eq (hflow : a.packet.flowId = flowId.toUInt64) (clock : Clock) :
    m.packetReceived a.packet flowId (a.now :: clock) =
      if m.Started then
        if (m.next a).rttRatio.geOne then .ok (m.next a, clock) else .error .assertFailed
      else .ok (m.first a, clock) := by
  have hzero : (Arithmetic.isZero m.lastTickSent || Arithmetic.isZero m.lastTickReceived) = true ↔
      ¬ m.Started := by
    show (decide (m.lastTickSent = 0) || decide (m.lastTickReceived = 0)) = true ↔ _
    rw [Started, Bool.or_eq_true, decide_eq_true_iff, decide_eq_true_iff]
    tauto
  rw [MemoryOf.packetReceived, if_pos hflow, timestamp_cons, ok_bind]
  dsimp only
  by_cases hm : m.Started
  · rw [if_neg (hzero.not.mpr (not_not.mpr hm)), if_pos hm]
    rfl
  · rw [if_pos (hzero.mpr hm), if_neg hm]
    rfl

theorem receive_first (hflow : a.packet.flowId = flowId.toUInt64) (h : ¬ m.Started) :
    m.receive flowId a = .ok (m.first a) := by
  rw [receive, packetReceived_of_flowId_eq hflow, if_neg h]
  rfl

/-- What a further packet comes to. -/
theorem receive_next (hflow : a.packet.flowId = flowId.toUInt64) (h : m.Started) :
    m.receive flowId a =
      if (m.next a).rttRatio.geOne then .ok (m.next a) else .error .assertFailed := by
  rw [receive, packetReceived_of_flowId_eq hflow, if_pos h]
  split <;> rfl

theorem started_first (ha : a.echo ≠ 0) (ha' : a.now.toNat ≠ 0) : (m.first a).Started :=
  ⟨Nat.cast_ne_zero.mpr ha, Nat.cast_ne_zero.mpr ha'⟩

theorem started_next (ha : a.echo ≠ 0) (ha' : a.now.toNat ≠ 0) : (m.next a).Started :=
  ⟨Nat.cast_ne_zero.mpr ha, Nat.cast_ne_zero.mpr ha'⟩

/-! ### The ratio -/

/-- Packets that are received one after the other. -/
def receiveAll (m : SenderMemory) (flowId : UInt32) (as : List Arrival) :
    Except Stop SenderMemory :=
  as.foldlM (fun m a => m.receive flowId a) m

theorem receiveAll_concat (m : SenderMemory) (flowId : UInt32) (as : List Arrival) (a : Arrival) :
    m.receiveAll flowId (as ++ [a]) = m.receiveAll flowId as >>= fun m => m.receive flowId a :=
  foldlM_concat _ m as a

/-- The smallest round-trip time, by which the last one was divided, is not zero, and the quotient
is a number from one on. -/
def HasRatio (m : SenderMemory) : Prop := m.minRtt ≠ 0 ∧ ∃ q, m.rttRatio = .number q ∧ 1 ≤ q

/-- The ratio is defined all along a sequence: after each part of it the memory keeps the smallest
round-trip time, and from the second packet on the divisor was not zero and the ratio is a number
from one on. -/
def RatioDefined (flowId : UInt32) (as : List Arrival) : Prop :=
  ∀ before after, as = before ++ after → ∃ m, init.receiveAll flowId before = .ok m ∧
    (before ≠ [] → IsLeast {r | ∃ a ∈ before, a.rtt = r} m.minRtt) ∧
    (2 ≤ before.length → m.HasRatio)

/-- What the memory keeps of a sequence that was received. -/
structure Kept (as : List Arrival) (m : SenderMemory) : Prop where
  started : as ≠ [] → m.Started
  fresh : as = [] → m = init
  minRtt : as ≠ [] → IsLeast {r | ∃ a ∈ as, a.rtt = r} m.minRtt
  ratio : 2 ≤ as.length → m.HasRatio

theorem Kept.nil : Kept [] init where
  started h := absurd rfl h
  fresh _ := rfl
  minRtt h := absurd rfl h
  ratio h := absurd h (by decide)

/-- The round-trip times of a longer sequence. -/
theorem setOf_rtt_concat (as : List Arrival) (a : Arrival) :
    {r | ∃ b ∈ as ++ [a], b.rtt = r} = insert a.rtt {r | ∃ b ∈ as, b.rtt = r} := by
  ext r
  simp only [List.mem_append, List.mem_singleton, Set.mem_ofPred_eq, Set.mem_insert_iff]
  constructor
  · rintro ⟨b, hb | rfl, rfl⟩
    · exact Or.inr ⟨b, hb, rfl⟩
    · exact Or.inl rfl
  · rintro (rfl | ⟨b, hb, rfl⟩)
    · exact ⟨a, Or.inr rfl, rfl⟩
    · exact ⟨b, Or.inl hb, rfl⟩

/-- A first packet of a sequence. -/
theorem Kept.first {as : List Arrival} (h : Kept as m) (has : as = []) (ha : a.Timely flowId) :
    m.receive flowId a = .ok (m.first a) ∧ Kept (as ++ [a]) (m.first a) := by
  subst has
  have hm : m = init := h.fresh rfl
  have hnot : ¬ m.Started := by
    rw [hm]
    exact fun hstarted => hstarted.1 rfl
  refine ⟨receive_first ha.flow hnot, ⟨fun _ => started_first ha.echo_ne ha.now_ne, ?_, ?_, ?_⟩⟩
  · intro hnil
    cases hnil
  · intro _
    refine ⟨⟨a, List.mem_singleton.mpr rfl, rfl⟩, ?_⟩
    rintro r ⟨b, hb, rfl⟩
    rw [List.mem_singleton.mp hb]
    exact le_rfl
  · intro hlen
    simp at hlen

/-- The smallest round-trip time after a further packet. -/
theorem Kept.isLeast_next {as : List Arrival} (h : Kept as m) (has : as ≠ []) (a : Arrival) :
    IsLeast {r | ∃ b ∈ as ++ [a], b.rtt = r} (min m.minRtt a.rtt) := by
  rw [setOf_rtt_concat, min_comm]
  exact (h.minRtt has).insert a.rtt

/-- The ratio of a further packet, when the smallest round-trip time is above zero. -/
theorem rttRatio_next (hmin : 0 < min m.minRtt a.rtt) :
    (m.next a).rttRatio = .number (a.rtt / min m.minRtt a.rtt) ∧
      1 ≤ a.rtt / min m.minRtt a.rtt :=
  ⟨if_pos hmin.ne', (one_le_div hmin).mpr (min_le_right _ _)⟩

/-- A further packet of a sequence, when no round trip took no time. -/
theorem Kept.next {as : List Arrival} (h : Kept as m) (has : as ≠ []) (ha : a.Timely flowId)
    (hpos : ∀ b ∈ as ++ [a], 0 < b.rtt) :
    m.receive flowId a = .ok (m.next a) ∧ Kept (as ++ [a]) (m.next a) := by
  have hleast := h.isLeast_next has a
  obtain ⟨b, hb, hbmin⟩ := hleast.1
  have hmin : 0 < min m.minRtt a.rtt := by
    rw [← hbmin]
    exact hpos b hb
  obtain ⟨hnumber, hratio⟩ := rttRatio_next hmin
  refine ⟨?_, ⟨fun _ => started_next ha.echo_ne ha.now_ne, ?_, fun _ => hleast,
    fun _ => ⟨hmin.ne', _, hnumber, hratio⟩⟩⟩
  · rw [receive_next ha.flow (h.started has), hnumber]
    exact if_pos (decide_eq_true hratio)
  · intro hnil
    exact absurd hnil (List.append_ne_nil_of_right_ne_nil _ (List.cons_ne_nil _ _))

/-- **A sequence all of whose round trips take some time is received.** -/
theorem receiveAll_of_pos {as : List Arrival} (hall : ∀ a ∈ as, a.Timely flowId)
    (hpos : ∀ a ∈ as, 0 < a.rtt) : ∃ m, init.receiveAll flowId as = .ok m ∧ Kept as m := by
  induction as using List.reverseRecOn with
  | nil => exact ⟨init, rfl, .nil⟩
  | append_singleton as a ih =>
    have ha : a.Timely flowId := hall a (List.mem_append_right _ List.mem_cons_self)
    obtain ⟨m, hrun, hkept⟩ := ih (fun b hb => hall b (List.mem_append_left _ hb))
      fun b hb => hpos b (List.mem_append_left _ hb)
    rw [receiveAll_concat, hrun, ok_bind]
    by_cases has : as = []
    · obtain ⟨hstep, hkept'⟩ := hkept.first has ha
      exact ⟨_, hstep, hkept'⟩
    · obtain ⟨hstep, hkept'⟩ := hkept.next has ha hpos
      exact ⟨_, hstep, hkept'⟩

/-- A single packet is received whatever its round-trip time. -/
theorem receiveAll_of_length_le_one {as : List Arrival} (hall : ∀ a ∈ as, a.Timely flowId)
    (hlen : as.length ≤ 1) : ∃ m, init.receiveAll flowId as = .ok m ∧ Kept as m := by
  rcases Nat.le_one_iff_eq_zero_or_eq_one.mp hlen with hzero | hone
  · rw [List.length_eq_zero_iff.mp hzero]
    exact ⟨init, rfl, .nil⟩
  · obtain ⟨a, rfl⟩ := List.length_eq_one_iff.mp hone
    obtain ⟨hstep, hkept⟩ := Kept.nil.first rfl (hall a (List.mem_singleton.mpr rfl))
    refine ⟨_, ?_, hkept⟩
    rw [← List.nil_append [a], receiveAll_concat]
    exact hstep

/-- A packet that a memory which has started receives. -/
theorem eq_next_of_receive (hflow : a.packet.flowId = flowId.toUInt64) (hm : m.Started)
    (h : m.receive flowId a = .ok m') : m' = m.next a := by
  rw [receive_next hflow hm] at h
  split at h
  · exact (Except.ok.inj h).symm
  · cases h

theorem rtt_eq_zero_iff : a.rtt = 0 ↔ a.now = a.packet.echoReplyTimestamp := by
  rw [Arrival.rtt, sub_eq_zero, Nat.cast_inj, Arrival.echo, UInt64.toNat_inj]

/-- A sequence is received, and so are its parts. -/
theorem ratioDefined_of_received {as : List Arrival}
    (h : ∀ before after, as = before ++ after →
      ∃ m, init.receiveAll flowId before = .ok m ∧ Kept before m) : RatioDefined flowId as := by
  intro before after has
  obtain ⟨m, hrun, hkept⟩ := h before after has
  exact ⟨m, hrun, hkept.minRtt, hkept.ratio⟩

/-- **When the ratio is defined all along**: there is no second packet, or none of the round
trips took less than a millisecond. -/
theorem ratio_defined_iff {as : List Arrival} (hall : ∀ a ∈ as, a.Timely flowId) :
    RatioDefined flowId as ↔
      as.length ≤ 1 ∨ ∀ a ∈ as, a.now ≠ a.packet.echoReplyTimestamp := by
  constructor
  · intro h
    rcases Nat.lt_or_ge 1 as.length with hlen | hlen
    · right
      intro a ha hzero
      -- a round trip of no time is the smallest one at the end
      obtain ⟨m, -, hleast, hratio⟩ := h as [] (List.append_nil as).symm
      have hmin := hleast (List.ne_nil_of_mem ha)
      have hle : m.minRtt ≤ 0 := hmin.2 ⟨a, ha, rtt_eq_zero_iff.mpr hzero⟩
      obtain ⟨b, hb, hbmin⟩ := hmin.1
      have hge : 0 ≤ m.minRtt := hbmin ▸ (hall b hb).rtt_nonneg
      exact (hratio hlen).1 (le_antisymm hle hge)
    · exact Or.inl hlen
  · rintro (hlen | hne)
    · apply ratioDefined_of_received
      rintro before after rfl
      apply receiveAll_of_length_le_one fun a ha => hall a (List.mem_append_left _ ha)
      rw [List.length_append] at hlen
      omega
    · apply ratioDefined_of_received
      rintro before after rfl
      apply receiveAll_of_pos fun a ha => hall a (List.mem_append_left _ ha)
      intro a ha
      have hmem : a ∈ before ++ after := List.mem_append_left _ ha
      exact lt_of_le_of_ne (hall a hmem).rtt_nonneg fun h => hne a hmem (rtt_eq_zero_iff.mp h.symm)

theorem ratio_defined_iff_of_two : RatioDefined 1 [.of 1 5 6, .of 1 6 8] := by
  have hall : ∀ a ∈ [Arrival.of 1 5 6, .of 1 6 8], a.Timely 1 := by
    intro a ha
    rcases List.mem_pair.mp ha with rfl | rfl
    · exact .of (by decide) (by decide)
    · exact .of (by decide) (by decide)
  exact (ratio_defined_iff hall).mpr (Or.inr (by decide))

/-- Two packets that are received in the millisecond in which they were sent fail the assertion,
and a packet that takes longer than the first gets an infinite ratio. -/
theorem ratio_undefined :
    (∀ a ∈ [Arrival.of 1 5 5, .of 1 5 5, .of 1 5 6], a.Timely 1) ∧
      init.receiveAll 1 [.of 1 5 5, .of 1 5 5] = .error .assertFailed ∧
      ¬ RatioDefined 1 [.of 1 5 5, .of 1 5 5] ∧
      (∃ m, init.receiveAll 1 [.of 1 5 5, .of 1 5 6] = .ok m ∧ m.rttRatio = .infinity false) ∧
      ¬ RatioDefined 1 [.of 1 5 5, .of 1 5 6] := by
  have hfails : init.receiveAll 1 [.of 1 5 5, .of 1 5 5] = .error .assertFailed := by
    decide +kernel
  have hinfinite : ∃ m, init.receiveAll 1 [.of 1 5 5, .of 1 5 6] = .ok m ∧
      m.rttRatio = .infinity false :=
    ⟨⟨0, 1 / 8, .infinity false, 1 / 256, 5, 6, 0⟩, by decide +kernel⟩
  refine ⟨fun a ha => ?_, hfails, fun h => ?_, hinfinite, fun h => ?_⟩
  · simp only [List.mem_cons, List.not_mem_nil, or_false] at ha
    rcases ha with rfl | rfl | rfl <;> exact .of (by decide) (by decide)
  · obtain ⟨m, hrun, -⟩ := h _ [] (List.append_nil _).symm
    rw [hfails] at hrun
    cases hrun
  · obtain ⟨m, hrun, hm⟩ := hinfinite
    obtain ⟨m', hrun', -, hratio⟩ := h _ [] (List.append_nil _).symm
    obtain rfl := Except.ok.inj (hrun.symm.trans hrun')
    obtain ⟨-, q, hq, -⟩ := hratio le_rfl
    rw [hm] at hq
    cases hq

/-! ### Sequences that stay inside the table -/

/-- A sequence of packets of the flow without reordering, in which consecutive times differ by less
than the width of the table, and the round-trip times lie between a millisecond and that width. -/
structure Steady (flowId : UInt32) (as : List Arrival) : Prop where
  flow : ∀ a ∈ as, a.packet.flowId = flowId.toUInt64
  echo_ne : ∀ a ∈ as, a.echo ≠ 0
  echoes : as.IsChain fun a b => a.echo ≤ b.echo ∧ b.echo < a.echo + 163840
  readings : as.IsChain fun a b =>
    a.now.toNat ≤ b.now.toNat ∧ b.now.toNat < a.now.toNat + 163840
  rtts : ∀ a ∈ as, 1 ≤ a.rtt ∧ a.rtt < 163840

namespace Steady

variable {as bs : List Arrival}

/-- A part of a steady sequence is steady. -/
theorem of_append (h : Steady flowId (as ++ bs)) : Steady flowId as where
  flow a ha := h.flow a (List.mem_append_left _ ha)
  echo_ne a ha := h.echo_ne a (List.mem_append_left _ ha)
  echoes := (List.isChain_append.mp h.echoes).1
  readings := (List.isChain_append.mp h.readings).1
  rtts a ha := h.rtts a (List.mem_append_left _ ha)

theorem rtt_pos (h : Steady flowId as) : ∀ a ∈ as, 0 < a.rtt := fun a ha =>
  lt_of_lt_of_le one_pos (h.rtts a ha).1

theorem timely (h : Steady flowId as) : ∀ a ∈ as, a.Timely flowId := by
  intro a ha
  have hlt : a.echo < a.now.toNat := by
    have hpos := h.rtt_pos a ha
    rw [Arrival.rtt, sub_pos] at hpos
    exact_mod_cast hpos
  exact ⟨h.flow a ha, h.echo_ne a ha, Nat.ne_of_gt (Nat.zero_lt_of_lt hlt), hlt.le⟩

/-- The steps from the last packet of a sequence to the next. -/
theorem step (h : Steady flowId (as ++ [a, b])) :
    ((b.echo : DataType) - a.echo) ∈ Set.Ico (0 : DataType) 163840 ∧
      ((b.now.toNat : DataType) - a.now.toNat) ∈ Set.Ico (0 : DataType) 163840 := by
  have hechoes := (List.isChain_append.mp h.echoes).2.1.rel
  have hreadings := (List.isChain_append.mp h.readings).2.1.rel
  refine ⟨⟨sub_nonneg.mpr (by exact_mod_cast hechoes.1), ?_⟩,
    ⟨sub_nonneg.mpr (by exact_mod_cast hreadings.1), ?_⟩⟩
  · rw [sub_lt_iff_lt_add']
    exact_mod_cast hechoes.2
  · rw [sub_lt_iff_lt_add']
    exact_mod_cast hreadings.2

end Steady

/-- The fields of the memory are numbers of the domain of the default table. -/
structure InsideTable (m : SenderMemory) : Prop where
  recSendEwma : m.recSendEwma ∈ Set.Ico (0 : DataType) 163840
  recRecEwma : m.recRecEwma ∈ Set.Ico (0 : DataType) 163840
  rttRatio : ∃ q ∈ Set.Ico (0 : DataType) 163840, m.rttRatio = .number q
  slowRecRecEwma : m.slowRecRecEwma ∈ Set.Ico (0 : DataType) 163840

theorem insideTable_init : init.InsideTable := by
  have hzero : (0 : DataType) ∈ Set.Ico (0 : DataType) 163840 := ⟨le_rfl, by decide⟩
  exact ⟨hzero, hzero, ⟨0, hzero, rfl⟩, hzero⟩

/-- A first packet leaves the averages and the ratio alone. -/
theorem InsideTable.first (h : m.InsideTable) (a : Arrival) : (m.first a).InsideTable :=
  ⟨h.recSendEwma, h.recRecEwma, h.rttRatio, h.slowRecRecEwma⟩

/-- A memory inside the table is one of numbers. -/
theorem InsideTable.exists_eq_toSender (h : m.InsideTable) :
    ∃ p : Memory, m = p.toSender ∧ ∀ i, p.field i ∈ Set.Ico (0 : DataType) 163840 := by
  obtain ⟨q, hq, hratio⟩ := h.rttRatio
  exact ⟨_, eq_toSender hratio,
    Memory.forall_axis.mpr ⟨h.recSendEwma, h.recRecEwma, hq, h.slowRecRecEwma⟩⟩

/-- An average of two values stays between the bounds of both. -/
theorem average_mem {w x y : DataType} (hw : 0 ≤ w) (hw' : w ≤ 1)
    (hx : x ∈ Set.Ico (0 : DataType) 163840) (hy : y ∈ Set.Ico (0 : DataType) 163840) :
    (1 - w) * x + w * y ∈ Set.Ico (0 : DataType) 163840 := by
  have hconvex : Convex DataType (Set.Ico (0 : DataType) 163840) := convex_Ico 0 163840
  exact hconvex hx hy (sub_nonneg.mpr hw') hw (sub_add_cancel 1 w)

/-- A further packet keeps the averages between their bounds, and the ratio is at most the
round-trip time. -/
theorem InsideTable.next (h : m.InsideTable)
    (hecho : (a.echo - m.lastTickSent) ∈ Set.Ico (0 : DataType) 163840)
    (hnow : (a.now.toNat - m.lastTickReceived) ∈ Set.Ico (0 : DataType) 163840)
    (hrtt : a.rtt < 163840) (hmin : 1 ≤ min m.minRtt a.rtt) : (m.next a).InsideTable := by
  have hpos : 0 < min m.minRtt a.rtt := lt_of_lt_of_le one_pos hmin
  have hnonneg : 0 ≤ a.rtt := le_trans hpos.le (min_le_right _ _)
  have hratio : a.rtt / min m.minRtt a.rtt ∈ Set.Ico (0 : DataType) 163840 :=
    ⟨div_nonneg hnonneg hpos.le, lt_of_le_of_lt (div_le_self hnonneg hmin) hrtt⟩
  have halpha : 0 ≤ alpha ∧ alpha ≤ 1 := by
    unfold alpha
    norm_num
  have hslow : 0 ≤ slowAlpha ∧ slowAlpha ≤ 1 := by
    unfold slowAlpha
    norm_num
  exact ⟨average_mem halpha.1 halpha.2 h.recSendEwma hecho,
    average_mem halpha.1 halpha.2 h.recRecEwma hnow, ⟨_, hratio, (rttRatio_next hpos).1⟩,
    average_mem hslow.1 hslow.2 h.slowRecRecEwma hnow⟩

/-- The memory has the times of the last packet. -/
theorem ticks_of_receive (hflow : a.packet.flowId = flowId.toUInt64)
    (h : m.receive flowId a = .ok m') :
    m'.lastTickSent = a.echo ∧ m'.lastTickReceived = a.now.toNat := by
  by_cases hm : m.Started
  · rw [eq_next_of_receive hflow hm h]
    exact ⟨rfl, rfl⟩
  · rw [receive_first hflow hm] at h
    rw [← Except.ok.inj h]
    exact ⟨rfl, rfl⟩

/-- **A steady sequence keeps the memory inside the table.** -/
theorem insideTable_of_steady {as : List Arrival} (hall : Steady flowId as)
    (h : init.receiveAll flowId as = .ok m) : m.InsideTable := by
  induction as using List.reverseRecOn generalizing m with
  | nil =>
    rw [← Except.ok.inj h]
    exact insideTable_init
  | append_singleton as a ih =>
    obtain ⟨m₀, hrun, hkept⟩ := receiveAll_of_pos hall.of_append.timely hall.of_append.rtt_pos
    have hinside : m₀.InsideTable := ih hall.of_append hrun
    have ha : a.Timely flowId := hall.timely a (by simp)
    rw [receiveAll_concat, hrun, ok_bind] at h
    rcases as.eq_nil_or_concat' with rfl | ⟨bs, b, rfl⟩
    · obtain ⟨hfirst, -⟩ := hkept.first rfl ha
      rw [hfirst] at h
      rw [← Except.ok.inj h]
      exact hinside.first a
    · have hne : bs ++ [b] ≠ [] := by simp
      obtain ⟨hnext, -⟩ := hkept.next hne ha hall.rtt_pos
      rw [hnext] at h
      rw [← Except.ok.inj h]
      -- the steps are taken from the packet before this one
      rw [receiveAll_concat] at hrun
      obtain ⟨m₁, -, hlast⟩ := bind_eq_ok.mp hrun
      obtain ⟨hsent, hreceived⟩ := ticks_of_receive (hall.flow b (by simp)) hlast
      rw [List.append_assoc] at hall
      obtain ⟨hecho, hnow⟩ := hall.step
      rw [← hsent] at hecho
      rw [← hreceived] at hnow
      have hrtt := (hall.rtts a (by simp)).2
      have hleast := hkept.isLeast_next hne a
      obtain ⟨c, hc, hcmin⟩ := hleast.1
      have hmin : 1 ≤ min m₀.minRtt a.rtt := by
        rw [← hcmin]
        rw [List.append_assoc] at hc
        exact (hall.rtts c hc).1
      exact hinside.next hecho hnow hrtt hmin

/-- A steady sequence of two packets. -/
theorem steady_two : Steady 1 [.of 1 5 6, .of 1 6 8] where
  flow := by decide
  echo_ne := by decide
  echoes := by decide
  readings := by decide
  rtts := by decide +kernel

end SenderMemory

/-! ### The lookups of a client -/

namespace Client

open Memory (Arrival)

/-- The lookups of a client: `Client::set_window_intersend` before the first packet, and then
`Client::packet_received` for each of them. -/
def receiveAll (c : Client) (as : List Arrival) : Except Stop Client := do
  let c ← c.setWindowIntersend
  as.foldlM (fun c a => (c.packetReceived a.packet [a.now]).map Prod.fst) c

theorem receiveAll_nil (c : Client) : c.receiveAll [] = c.setWindowIntersend := by
  unfold receiveAll
  cases c.setWindowIntersend <;> rfl

theorem receiveAll_concat (c : Client) (as : List Arrival) (a : Arrival) :
    c.receiveAll (as ++ [a]) =
      c.receiveAll as >>= fun c => (c.packetReceived a.packet [a.now]).map Prod.fst := by
  unfold receiveAll
  cases c.setWindowIntersend with
  | error why => rfl
  | ok c₀ => exact foldlM_concat _ c₀ as a

/-- The table finds a rule for every memory of its default domain. -/
def FindsRule (whiskers : WhiskerTree) : Prop :=
  ∀ m, WhiskerTree.rootDomain.contains m → ∃ w, whiskers.whisker m = .ok (some w)

/-- The root of the table contains the memories of its default domain. -/
def Covers (whiskers : WhiskerTree) : Prop :=
  ∀ m, WhiskerTree.rootDomain.contains m → Region.contains whiskers.region m

/-- The root of a table contains what a lookup in it finds. -/
theorem FindsRule.covers {whiskers : WhiskerTree} (h : FindsRule whiskers) : Covers whiskers := by
  intro m hm
  obtain ⟨w, hw⟩ := h m hm
  by_contra hnot
  rw [WhiskerTree.whisker, RegionTree.lookup, RegionTree.visit_of_not_inside _ hnot] at hw
  cases hw

/-- What a lookup that comes to its end leaves of the client. -/
theorem covers_of_setWindowIntersend {c c' : Client} (hc : Covers c.whiskers)
    (h : c.setWindowIntersend = .ok c') :
    c'.memory = c.memory ∧ c'.flowId = c.flowId ∧ Covers c'.whiskers := by
  obtain ⟨⟨w, window, hused, -, -⟩, intersend, hc'⟩ := setWindowIntersend_eq_ok h
  refine ⟨by rw [hc'], by rw [hc'], fun m hm => ?_⟩
  have hsame := WhiskerTree.sameBounds_region_useWhisker hused
  show MemoryRange.contains _ m
  rw [hsame.contains_eq m]
  exact hc m hm

/-- A lookup in the default domain does not end the program with a status. -/
theorem setWindowIntersend_ne_exit {c : Client} (hc : Covers c.whiskers)
    (hm : WhiskerTree.rootDomain.contains c.memory) :
    c.setWindowIntersend ≠ .error (.exit 1) := by
  apply bind_ne_error (WhiskerTree.useWhisker_ne_exit (hc _ hm) _)
  intro r _
  -- the conversions of the window and of the intersend time end in other ways
  refine bind_ne_error ?_ fun window _ => bind_ne_error ?_ fun intersend _ h => by cases h
  · refine bind_ne_error ?_ fun n _ h => by cases h
    unfold toInt
    split <;> exact fun h => by cases h
  · unfold toUInt64
    split <;> exact fun h => by cases h

/-- The state of a client after a part of a sequence. -/
structure Along (c : Client) (flowId : UInt32) (as : List Arrival) : Prop where
  memory : SenderMemory.init.receiveAll flowId as = .ok c.memory.toSender
  flowId : c.flowId.toUInt32 = flowId
  covers : Covers c.whiskers

theorem Along.of_setWindowIntersend {c c' : Client} {flowId : UInt32} {as : List Arrival}
    (h : Along c flowId as) (hset : c.setWindowIntersend = .ok c') : Along c' flowId as := by
  obtain ⟨hmemory, hflow, hcovers⟩ := covers_of_setWindowIntersend h.covers hset
  exact ⟨hmemory ▸ h.memory, hflow ▸ h.flowId, hcovers⟩

/-- A memory inside the table is one that its default domain contains. -/
theorem exists_contains_of_insideTable {m : SenderMemory} (h : m.InsideTable) :
    ∃ p : Memory, m = p.toSender ∧ WhiskerTree.rootDomain.contains p := by
  obtain ⟨p, hp, hfields⟩ := h.exists_eq_toSender
  refine ⟨p, hp, ?_⟩
  rw [MemoryRange.contains_iff_mem_box, HalfOpenBox.mem_box]
  intro i
  have hi := hfields i
  fin_cases i <;> exact hi

/-- **One packet of a steady sequence.** -/
theorem Along.packetReceived {c : Client} {flowId : UInt32} {as : List Arrival} {a : Arrival}
    (h : Along c flowId as) (hall : SenderMemory.Steady flowId (as ++ [a])) :
    c.packetReceived a.packet [a.now] ≠ .error (.exit 1) ∧
      ∀ r, c.packetReceived a.packet [a.now] = .ok r → Along r.1 flowId (as ++ [a]) := by
  obtain ⟨m, hrun, -⟩ := SenderMemory.receiveAll_of_pos hall.timely hall.rtt_pos
  obtain ⟨p, rfl, hinside⟩ :=
    exists_contains_of_insideTable (SenderMemory.insideTable_of_steady hall hrun)
  -- the memory of the client goes along
  have hstep : c.memory.toSender.receive flowId a = .ok p.toSender := by
    rw [SenderMemory.receiveAll_concat, h.memory, ok_bind] at hrun
    exact hrun
  obtain ⟨⟨m', rest⟩, hmemory, rfl⟩ := map_eq_ok.mp hstep
  rw [← h.flowId] at hmemory
  rw [Client.packetReceived]
  dsimp only
  rw [hmemory, ok_bind]
  dsimp only
  rw [SenderMemory.point_eq_ok.mpr rfl, ok_bind]
  constructor
  · exact bind_ne_error (setWindowIntersend_ne_exit h.covers hinside) fun c' _ hr => by cases hr
  · intro r hr
    obtain ⟨c', hset, hr⟩ := bind_eq_ok.mp hr
    obtain rfl := Except.ok.inj hr
    have halong : Along { c with
        largestAck := max a.packet.sequenceNumber c.largestAck
        memory := p } flowId (as ++ [a]) := ⟨hrun, h.flowId, h.covers⟩
    exact halong.of_setWindowIntersend hset

/-- **The lookups along a steady sequence.** -/
theorem receiveAll_of_steady {c : Client} {flowId : UInt32} {as : List Arrival}
    (hc : Along c flowId []) (hall : SenderMemory.Steady flowId as) :
    c.receiveAll as ≠ .error (.exit 1) ∧ ∀ c', c.receiveAll as = .ok c' → Along c' flowId as := by
  induction as using List.reverseRecOn with
  | nil =>
    have hinside : WhiskerTree.rootDomain.contains c.memory := by
      have hinit := SenderMemory.insideTable_of_steady hall hc.memory
      obtain ⟨p, hp, hcontains⟩ := exists_contains_of_insideTable hinit
      rwa [SenderMemory.toSender_inj.mp hp]
    rw [receiveAll_nil]
    exact ⟨setWindowIntersend_ne_exit hc.covers hinside,
      fun c' hset => hc.of_setWindowIntersend hset⟩
  | append_singleton as a ih =>
    obtain ⟨hne, hrun⟩ := ih hall.of_append
    rw [receiveAll_concat]
    constructor
    · apply bind_ne_error hne
      intro c₁ h₁
      obtain ⟨hstep, -⟩ := (hrun c₁ h₁).packetReceived hall
      exact map_ne_error hstep
    · intro c' h
      obtain ⟨c₁, h₁, h⟩ := bind_eq_ok.mp h
      obtain ⟨-, hstep⟩ := (hrun c₁ h₁).packetReceived hall
      obtain ⟨r, hr, rfl⟩ := map_eq_ok.mp h
      exact hstep r hr

/-- **The memory stays inside the table**: along a steady sequence its fields stay in the default
domain, and no lookup of a client whose table finds a rule for each memory of the default domain
ends the program. -/
theorem steady_inside {flowId : UInt32} {as : List Arrival} (hall : SenderMemory.Steady flowId as) :
    (∀ before after, as = before ++ after → ∃ m : Memory,
        SenderMemory.init.receiveAll flowId before = .ok m.toSender ∧
          ∀ i, 0 ≤ m.field i ∧ m.field i < 163840) ∧
      ∀ c : Client, c.memory = .init → c.flowId.toUInt32 = flowId → FindsRule c.whiskers →
        c.receiveAll as ≠ .error (.exit 1) := by
  constructor
  · intro before after has
    subst has
    obtain ⟨m, hrun, -⟩ :=
      SenderMemory.receiveAll_of_pos hall.of_append.timely hall.of_append.rtt_pos
    obtain ⟨p, rfl, hfields⟩ :=
      (SenderMemory.insideTable_of_steady hall.of_append hrun).exists_eq_toSender
    exact ⟨p, hrun, hfields⟩
  · intro c hmemory hflow hfinds
    have hc : Along c flowId [] := ⟨by rw [hmemory]; rfl, hflow, hfinds.covers⟩
    exact (receiveAll_of_steady hc hall).1

/-- The default table finds its rule for each memory of its domain. -/
theorem findsRule_init : FindsRule .init := by
  intro m hm
  refine ⟨.ofDomain WhiskerTree.rootDomain, RegionTree.lookup_eq_some.mpr ?_⟩
  exact ⟨.hole, WhiskerTree.rootDomain, rfl, trivial, hm⟩

theorem steady_inside_of_two :
    (∃ m : Memory, SenderMemory.init.receiveAll 1 [.of 1 5 6, .of 1 6 8] = .ok m.toSender ∧
        ∀ i, 0 ≤ m.field i ∧ m.field i < 163840) ∧
      (make ⟨0, 0⟩ { localAddr := ⟨0, 0⟩ } .init true).receiveAll [.of 1 5 6, .of 1 6 8]
        ≠ .error (.exit 1) :=
  ⟨(steady_inside SenderMemory.steady_two).1 _ [] rfl,
    (steady_inside SenderMemory.steady_two).2 _ rfl rfl findsRule_init⟩

end Client

end SendReceive
