import SendReceive.Packet
import Mathlib.Data.Fin.VecNotation
import Mathlib.Logic.Function.Basic
import Mathlib.Tactic.FinCases

/-!
# The congestion-control memory

The memory a sender keeps of the acknowledgements it received: three moving
averages and a ratio, the four axes the rule table is indexed by, and the last
timestamps they are computed from.

The ratio is a quotient of two doubles, and so it need not be a number: a divisor
of zero makes it infinite.  The points of the rule table are memories of which all
members are numbers, and the updates on an acknowledgement are written for any
arithmetic of the numbers and of their quotients.

* `MemoryOf`, `Memory` — the memory, and one of which all members are numbers.
* `Memory.field`, `Memory.setField` — the axes.
* `Memory.opGe`, `Memory.opLt`, `Memory.opEq` — the comparison operators.
* `Arithmetic`, `MemoryOf.packetReceived` — the update on an acknowledgement.
* `Ratio`, `SenderMemory` — the update over exact rationals.
-/

namespace SendReceive

/-- `Memory`, with numbers of the type `α` and a ratio of the type `ρ`. -/
structure MemoryOf (α ρ : Type) where
  recSendEwma : α
  recRecEwma : α
  rttRatio : ρ
  slowRecRecEwma : α
  lastTickSent : α
  lastTickReceived : α
  minRtt : α
  deriving DecidableEq, Repr

/-- A memory of which all members are numbers. -/
abbrev Memory := MemoryOf DataType DataType

namespace Memory

/-- `Memory::datasize`: the number of axes. -/
abbrev datasize : ℕ := 4

/-- The constructor from the values on the four axes. -/
def ofData (recSendEwma recRecEwma rttRatio slowRecRecEwma : DataType) : Memory :=
  ⟨recSendEwma, recRecEwma, rttRatio, slowRecRecEwma, 0, 0, 0⟩

/-- The default constructor. -/
def init : Memory := ofData 0 0 0 0

/-- `Memory::field`, for the axes there are. -/
def field (m : Memory) : Fin datasize → DataType
  | 0 => m.recSendEwma
  | 1 => m.recRecEwma
  | 2 => m.rttRatio
  | 3 => m.slowRecRecEwma

/-- The assignment of `v` to `Memory::mutable_field( num )`. -/
def setField (m : Memory) (num : Fin datasize) (v : DataType) : Memory :=
  match num with
  | 0 => { m with recSendEwma := v }
  | 1 => { m with recRecEwma := v }
  | 2 => { m with rttRatio := v }
  | 3 => { m with slowRecRecEwma := v }

theorem field_setField (m : Memory) (num : Fin datasize) (v : DataType) :
    (m.setField num v).field = Function.update m.field num v := by
  funext j
  fin_cases num <;> fin_cases j <;> rfl

theorem forall_axis {P : Fin datasize → Prop} :
    (∀ i, P i) ↔ P 0 ∧ P 1 ∧ P 2 ∧ P 3 := by
  constructor
  · intro h
    exact ⟨h 0, h 1, h 2, h 3⟩
  · rintro ⟨h0, h1, h2, h3⟩ i
    fin_cases i
    · exact h0
    · exact h1
    · exact h2
    · exact h3

/-! ### The comparison operators -/

/-- `operator>=`. -/
def opGe (m other : Memory) : Bool :=
  m.recSendEwma ≥ other.recSendEwma && m.recRecEwma ≥ other.recRecEwma
    && m.rttRatio ≥ other.rttRatio && m.slowRecRecEwma ≥ other.slowRecRecEwma

/-- `operator<`. -/
def opLt (m other : Memory) : Bool :=
  m.recSendEwma < other.recSendEwma && m.recRecEwma < other.recRecEwma
    && m.rttRatio < other.rttRatio && m.slowRecRecEwma < other.slowRecRecEwma

/-- `operator==`.  It compares `_rec_rec_ewma` with itself. -/
def opEq (m other : Memory) : Bool :=
  m.recSendEwma == other.recSendEwma && m.recRecEwma == m.recRecEwma
    && m.rttRatio == other.rttRatio && m.slowRecRecEwma == other.slowRecRecEwma

theorem opGe_iff {m other : Memory} : m.opGe other ↔ ∀ i, other.field i ≤ m.field i := by
  rw [forall_axis]
  simp [opGe, field, and_assoc]

theorem opLt_iff {m other : Memory} : m.opLt other ↔ ∀ i, m.field i < other.field i := by
  rw [forall_axis]
  simp [opLt, field, and_assoc]

/-- The operator tells apart what differs on an axis other than `_rec_rec_ewma`. -/
theorem opEq_iff {m other : Memory} : m.opEq other ↔ ∀ i ≠ 1, m.field i = other.field i := by
  rw [forall_axis]
  simp [opEq, field, and_assoc]

/-- The operator holds between memories with the same fields. -/
theorem opEq_of_field_eq {m other : Memory} (h : ∀ i, m.field i = other.field i) :
    m.opEq other :=
  opEq_iff.mpr fun i _ => h i

end Memory

/-- `MAX_MEMORY()`. -/
def maxMemory : Memory := Memory.ofData 163840 163840 163840 163840

/-! ### Acknowledgements -/

/-- The arithmetic of `double`, as far as the updates of a memory use it.  The quotients of the
numbers are of a type of their own. -/
class Arithmetic (α : Type) (ρ : outParam Type) [Add α] [Sub α] [Mul α] where
  /-- The conversion of a `uint64_t`. -/
  ofUInt64 : UInt64 → α
  one : α
  /-- The weight of a new sample. -/
  alpha : α
  /-- The weight of a new sample in the slow average. -/
  slowAlpha : α
  isZero : α → Bool
  min : α → α → α
  div : α → α → ρ
  /-- The comparison `>= 1.0`. -/
  geOne : ρ → Bool

namespace MemoryOf

variable {α ρ : Type}

/-- `Memory::packet_sent` does nothing. -/
def packetSent (m : MemoryOf α ρ) (_packet : Packet) : MemoryOf α ρ := m

open Arithmetic

variable [Add α] [Sub α] [Mul α] [Arithmetic α ρ]

/-- `Memory::packet_received`. -/
def packetReceived (m : MemoryOf α ρ) (packet : Packet) (flowId : UInt32) (clock : Clock) :
    Except Stop (MemoryOf α ρ × Clock) :=
  if packet.flowId = flowId.toUInt64 then do
    let (now, clock) ← timestamp clock
    let receivedTime : α := ofUInt64 now
    let echo : α := ofUInt64 packet.echoReplyTimestamp
    let rtt := receivedTime - echo
    if isZero m.lastTickSent || isZero m.lastTickReceived then
      return ({ m with
        lastTickSent := echo
        lastTickReceived := receivedTime
        minRtt := rtt }, clock)
    else
      let rttRatio := div rtt (min m.minRtt rtt)
      if geOne (α := α) rttRatio then
        return ({
          recSendEwma := (one - alpha) * m.recSendEwma + alpha * (echo - m.lastTickSent)
          recRecEwma := (one - alpha) * m.recRecEwma + alpha * (receivedTime - m.lastTickReceived)
          slowRecRecEwma := (one - slowAlpha) * m.slowRecRecEwma
            + slowAlpha * (receivedTime - m.lastTickReceived)
          lastTickSent := echo
          lastTickReceived := receivedTime
          minRtt := min m.minRtt rtt
          rttRatio := rttRatio }, clock)
      else .error .assertFailed
  else .ok (m, clock)

/-- A packet of another flow changes nothing and reads no clock. -/
theorem packetReceived_of_flowId_ne {m : MemoryOf α ρ} {packet : Packet} {flowId : UInt32}
    (h : packet.flowId ≠ flowId.toUInt64) (clock : Clock) :
    m.packetReceived packet flowId clock = .ok (m, clock) :=
  if_neg h

end MemoryOf

/-! ### Exact rationals -/

/-- A quotient of two doubles. -/
inductive Ratio where
  | number (q : DataType)
  | infinity (negative : Bool)
  | nan
  deriving DecidableEq, Repr

namespace Ratio

/-- The quotient of two numbers. -/
def div (x y : DataType) : Ratio :=
  if y ≠ 0 then .number (x / y) else if x = 0 then .nan else .infinity (x < 0)

/-- The comparison `>= 1.0`. -/
def geOne : Ratio → Bool
  | .number q => 1 ≤ q
  | .infinity negative => !negative
  | .nan => false

end Ratio

/-- The weight of a new sample. -/
def Memory.alpha : DataType := 1 / 8

/-- The weight of a new sample in the slow average. -/
def Memory.slowAlpha : DataType := 1 / 256

/-- The numbers are exact rationals. -/
instance : Arithmetic DataType Ratio where
  ofUInt64 n := n.toNat
  one := 1
  alpha := Memory.alpha
  slowAlpha := Memory.slowAlpha
  isZero x := x = 0
  min := Min.min
  div := Ratio.div
  geOne := Ratio.geOne

/-- The numbers are those of the machine. -/
instance : Arithmetic Float Float where
  ofUInt64 := UInt64.toFloat
  one := 1
  alpha := 1 / 8
  slowAlpha := 1 / 256
  isZero x := x == 0
  min x y := if y < x then y else x
  div := (· / ·)
  geOne r := r ≥ 1

/-- The memory of a sender: its ratio is a quotient of two numbers. -/
abbrev SenderMemory := MemoryOf DataType Ratio

/-- A memory of numbers as that of a sender. -/
def Memory.toSender (m : Memory) : SenderMemory where
  recSendEwma := m.recSendEwma
  recRecEwma := m.recRecEwma
  rttRatio := .number m.rttRatio
  slowRecRecEwma := m.slowRecRecEwma
  lastTickSent := m.lastTickSent
  lastTickReceived := m.lastTickReceived
  minRtt := m.minRtt

namespace SenderMemory

theorem toSender_inj {m m' : Memory} : m.toSender = m'.toSender ↔ m = m' := by
  obtain ⟨a, b, q, d, e, f, g⟩ := m
  obtain ⟨a', b', q', d', e', f', g'⟩ := m'
  simp [Memory.toSender]

/-- The default constructor. -/
def init : SenderMemory := Memory.init.toSender

/-- The memory that the rule table is asked for.  Where the ratio is no number the call of
`use_whisker` ends the program: the upper corner of a domain is made of numbers, and neither
`+inf` nor NaN is less than one. -/
def point (m : SenderMemory) : Except Stop Memory :=
  match m.rttRatio with
  | .number q => .ok {
      recSendEwma := m.recSendEwma
      recRecEwma := m.recRecEwma
      rttRatio := q
      slowRecRecEwma := m.slowRecRecEwma
      lastTickSent := m.lastTickSent
      lastTickReceived := m.lastTickReceived
      minRtt := m.minRtt }
  | _ => .error (.exit 1)

theorem point_eq_ok {m : SenderMemory} {m' : Memory} : m.point = .ok m' ↔ m = m'.toSender := by
  obtain ⟨a, b, ratio, d, e, f, g⟩ := m
  obtain ⟨a', b', q', d', e', f', g'⟩ := m'
  cases ratio <;> simp [point, Memory.toSender]

/-- A memory whose ratio is a number. -/
theorem eq_toSender {m : SenderMemory} {q : DataType} (h : m.rttRatio = .number q) :
    m = Memory.toSender ⟨m.recSendEwma, m.recRecEwma, q, m.slowRecRecEwma, m.lastTickSent,
      m.lastTickReceived, m.minRtt⟩ := by
  obtain ⟨a, b, ratio, d, e, f, g⟩ := m
  cases h
  rfl

end SenderMemory

end SendReceive
