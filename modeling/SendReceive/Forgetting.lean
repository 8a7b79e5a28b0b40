import SendReceive.Lib.WeightedAverage
import SendReceive.RoundTrips

/-!
# What the memory forgets

The averages of a memory follow the gaps between packets, each packet with the weight of one part in
8 or in 256.  What they were before a sequence of packets fades at exactly this rate, whatever the
packets are; what the memory keeps for ever is the smallest round-trip time, and through it the
ratio.  The first packet of a memory sets the last times only, so that all this begins with the
second one.

## Main definitions

* `SenderMemory.gaps` — the gaps between times, from the last time before them on.

## Main results

* `SenderMemory.follows_of_receiveAll` — the fields of a memory after a sequence.
* `SenderMemory.forgets` — **two memories that receive the same packets come together**.
* `SenderMemory.averages_track_gaps` — **the averages come near to the range of the gaps**.
-/

namespace SendReceive

open WeightedAverage

namespace SenderMemory

open Memory (Arrival alpha slowAlpha)

variable {m m' : SenderMemory} {flowId : UInt32} {as : List Arrival}

/-- The gaps between the times `ts`, from the time `last` on. -/
def gaps (last : DataType) : List DataType → List DataType
  | [] => []
  | t :: ts => (t - last) :: gaps t ts

@[simp] theorem length_gaps (ts : List DataType) : ∀ last, (gaps last ts).length = ts.length := by
  induction ts with
  | nil => exact fun _ => rfl
  | cons t ts ih => exact fun last => congrArg (· + 1) (ih t)

/-- The gaps of a chain of times. -/
theorem forall_gaps {P : DataType → Prop} {ts : List DataType} : ∀ {last : DataType},
    (last :: ts).IsChain (fun s t => P (t - s)) → ∀ g ∈ gaps last ts, P g := by
  induction ts with
  | nil =>
    intro last _ g hg
    cases hg
  | cons t ts ih =>
    intro last hchain g hg
    obtain ⟨hfirst, hrest⟩ := List.isChain_cons_cons.mp hchain
    rcases List.mem_cons.mp hg with rfl | hmem
    · exact hfirst
    · exact ih hrest g hmem

/-- When the packets of a sequence were sent. -/
def echoes (as : List Arrival) : List DataType := as.map fun a => (a.echo : DataType)

/-- When they were received. -/
def readings (as : List Arrival) : List DataType := as.map fun a => (a.now.toNat : DataType)

/-- What a memory that has started comes to with a sequence of packets. -/
structure Follows (m : SenderMemory) (as : List Arrival) (m' : SenderMemory) : Prop where
  recSendEwma : m'.recSendEwma
    = averages alpha m.recSendEwma (gaps m.lastTickSent (echoes as))
  recRecEwma : m'.recRecEwma
    = averages alpha m.recRecEwma (gaps m.lastTickReceived (readings as))
  slowRecRecEwma : m'.slowRecRecEwma
    = averages slowAlpha m.slowRecRecEwma (gaps m.lastTickReceived (readings as))
  minRtt : m'.minRtt = (as.map Arrival.rtt).foldl min m.minRtt
  lastTickSent : m'.lastTickSent = (echoes as).getLastD m.lastTickSent
  lastTickReceived : m'.lastTickReceived = (readings as).getLastD m.lastTickReceived
  rttRatio : ∀ a ∈ as.getLast?, m'.rttRatio = .div a.rtt m'.minRtt

theorem receiveAll_cons (m : SenderMemory) (flowId : UInt32) (a : Arrival) (as : List Arrival) :
    m.receiveAll flowId (a :: as) = m.receive flowId a >>= fun m => m.receiveAll flowId as :=
  List.foldlM_cons

/-- **The fields of a memory after a sequence of packets.** -/
theorem follows_of_receiveAll (as : List Arrival) : ∀ {m m' : SenderMemory}, m.Started →
    (∀ a ∈ as, a.Timely flowId) → m.receiveAll flowId as = .ok m' → Follows m as m' := by
  induction as with
  | nil =>
    intro m m' hm _ h
    obtain rfl := Except.ok.inj h
    exact ⟨rfl, rfl, rfl, rfl, rfl, rfl, fun a ha => by cases ha⟩
  | cons a as ih =>
    intro m m' hm hall h
    rw [receiveAll_cons] at h
    obtain ⟨m₁, hfirst, hrest⟩ := bind_eq_ok.mp h
    have ha := hall a List.mem_cons_self
    obtain rfl := eq_next_of_receive ha.flow hm hfirst
    have hfollows := ih (started_next ha.echo_ne ha.now_ne)
      (fun b hb => hall b (List.mem_cons_of_mem _ hb)) hrest
    refine ⟨hfollows.recSendEwma, hfollows.recRecEwma, hfollows.slowRecRecEwma, hfollows.minRtt,
      ?_, ?_, fun b hb => ?_⟩
    · rw [hfollows.lastTickSent]
      exact (List.getLastD_cons ..).symm
    · rw [hfollows.lastTickReceived]
      exact (List.getLastD_cons ..).symm
    · cases as with
      | nil =>
        obtain rfl := Option.some.inj hb
        obtain rfl := Except.ok.inj hrest
        rfl
      | cons c as => exact hfollows.rttRatio b hb

/-- **Two memories that receive the same packets come together**, once they have received a packet.
What they differ in is down to `7 / 8` with each packet, and in the slow average to `255 / 256`,
whatever the packets are; only the smallest round-trip times need not come together, and through
them the ratios, each of which is the last round-trip time divided by the smallest one. -/
theorem forgets {m₁ m₂ m₁' m₂' : SenderMemory} (hm : m₁.Started)
    (hsent : m₂.lastTickSent = m₁.lastTickSent)
    (hreceived : m₂.lastTickReceived = m₁.lastTickReceived) (hall : ∀ a ∈ as, a.Timely flowId)
    (hrun₁ : m₁.receiveAll flowId as = .ok m₁') (hrun₂ : m₂.receiveAll flowId as = .ok m₂') :
    m₁'.recSendEwma - m₂'.recSendEwma
        = (7 / 8) ^ as.length * (m₁.recSendEwma - m₂.recSendEwma) ∧
      m₁'.recRecEwma - m₂'.recRecEwma
        = (7 / 8) ^ as.length * (m₁.recRecEwma - m₂.recRecEwma) ∧
      m₁'.slowRecRecEwma - m₂'.slowRecRecEwma
        = (255 / 256) ^ as.length * (m₁.slowRecRecEwma - m₂.slowRecRecEwma) ∧
      m₁'.minRtt = (as.map Arrival.rtt).foldl min m₁.minRtt ∧
      m₂'.minRtt = (as.map Arrival.rtt).foldl min m₂.minRtt ∧
      ∀ a ∈ as.getLast?, m₁'.rttRatio = .div a.rtt m₁'.minRtt ∧
        m₂'.rttRatio = .div a.rtt m₂'.minRtt := by
  have hm₂ : m₂.Started := by
    rw [Started, hsent, hreceived]
    exact hm
  have h₁ := follows_of_receiveAll as hm hall hrun₁
  have h₂ := follows_of_receiveAll as hm₂ hall hrun₂
  have hfast : (1 : DataType) - alpha = 7 / 8 := by norm_num [alpha]
  have hslow : (1 : DataType) - slowAlpha = 255 / 256 := by norm_num [slowAlpha]
  refine ⟨?_, ?_, ?_, h₁.minRtt, h₂.minRtt, fun a ha => ⟨h₁.rttRatio a ha, h₂.rttRatio a ha⟩⟩
  · rw [h₁.recSendEwma, h₂.recSendEwma, hsent, averages_sub, length_gaps, hfast, echoes,
      List.length_map]
  · rw [h₁.recRecEwma, h₂.recRecEwma, hreceived, averages_sub, length_gaps, hfast, readings,
      List.length_map]
  · rw [h₁.slowRecRecEwma, h₂.slowRecRecEwma, hreceived, averages_sub, length_gaps, hslow, readings,
      List.length_map]

/-- An average of gaps of a chain of times. -/
theorem averages_gaps_mem {w last a b : DataType} {ts : List DataType} (hw : 0 ≤ w) (hw' : w ≤ 1)
    (hchain : (last :: ts).IsChain fun s t => a ≤ t - s ∧ t - s ≤ b) (x : DataType) :
    averages w x (gaps last ts) ∈ Set.Icc (a + (1 - w) ^ ts.length * (x - a))
      (b + (1 - w) ^ ts.length * (x - b)) := by
  have hgaps := forall_gaps (P := fun g => a ≤ g ∧ g ≤ b) hchain
  rw [← length_gaps ts last]
  exact ⟨le_averages hw hw' _ x fun g hg => (hgaps g hg).1,
    averages_le hw hw' _ x fun g hg => (hgaps g hg).2⟩

/-- **The averages come near to the range of the gaps**, once the memory has received a packet.
When the packets of a sequence were sent at intervals from `a` to `b` and received at intervals from
`c` to `d`, each average is outside of the range of its intervals by no more than what is left of
the distance it had before. -/
theorem averages_track_gaps (hm : m.Started) (hall : ∀ a ∈ as, a.Timely flowId)
    (hrun : m.receiveAll flowId as = .ok m') {a b c d : DataType}
    (hsent : (m.lastTickSent :: echoes as).IsChain fun s t => a ≤ t - s ∧ t - s ≤ b)
    (hreceived : (m.lastTickReceived :: readings as).IsChain fun s t => c ≤ t - s ∧ t - s ≤ d) :
    m'.recSendEwma ∈ Set.Icc (a + (7 / 8) ^ as.length * (m.recSendEwma - a))
        (b + (7 / 8) ^ as.length * (m.recSendEwma - b)) ∧
      m'.recRecEwma ∈ Set.Icc (c + (7 / 8) ^ as.length * (m.recRecEwma - c))
        (d + (7 / 8) ^ as.length * (m.recRecEwma - d)) ∧
      m'.slowRecRecEwma ∈ Set.Icc (c + (255 / 256) ^ as.length * (m.slowRecRecEwma - c))
        (d + (255 / 256) ^ as.length * (m.slowRecRecEwma - d)) := by
  have h := follows_of_receiveAll as hm hall hrun
  have hfast : (1 : DataType) - alpha = 7 / 8 := by norm_num [alpha]
  have hslow : (1 : DataType) - slowAlpha = 255 / 256 := by norm_num [slowAlpha]
  have hlength : (echoes as).length = as.length := List.length_map _
  have hlength' : (readings as).length = as.length := List.length_map _
  have halpha : (0 : DataType) ≤ alpha ∧ alpha ≤ 1 := by norm_num [alpha]
  have hslowAlpha : (0 : DataType) ≤ slowAlpha ∧ slowAlpha ≤ 1 := by norm_num [slowAlpha]
  refine ⟨?_, ?_, ?_⟩
  · rw [h.recSendEwma, ← hlength, ← hfast]
    exact averages_gaps_mem halpha.1 halpha.2 hsent m.recSendEwma
  · rw [h.recRecEwma, ← hlength', ← hfast]
    exact averages_gaps_mem halpha.1 halpha.2 hreceived m.recRecEwma
  · rw [h.slowRecRecEwma, ← hlength', ← hslow]
    exact averages_gaps_mem hslowAlpha.1 hslowAlpha.2 hreceived m.slowRecRecEwma

/-- Memories that differ in one average. -/
def before (recSendEwma : DataType) : SenderMemory :=
  { init.first (.of 1 5 6) with recSendEwma := recSendEwma }

theorem receiveAll_before : ∃ m₁ m₂, (before 8).receiveAll 1 [.of 1 6 8, .of 1 8 10] = .ok m₁ ∧
    (before 0).receiveAll 1 [.of 1 6 8, .of 1 8 10] = .ok m₂ := by
  have hsome : ((before 8).receiveAll 1 [.of 1 6 8, .of 1 8 10]).isOk ∧
      ((before 0).receiveAll 1 [.of 1 6 8, .of 1 8 10]).isOk := by
    decide +kernel
  obtain ⟨h₁, h₂⟩ := hsome
  cases hrun₁ : (before 8).receiveAll 1 [.of 1 6 8, .of 1 8 10] with
  | error why => rw [hrun₁] at h₁; cases h₁
  | ok m₁ =>
    cases hrun₂ : (before 0).receiveAll 1 [.of 1 6 8, .of 1 8 10] with
    | error why => rw [hrun₂] at h₂; cases h₂
    | ok m₂ => exact ⟨m₁, m₂, rfl, rfl⟩

theorem started_before (x : DataType) : (before x).Started :=
  started_first (m := .init) (a := .of 1 5 6) (by decide) (by decide)

theorem timely_two : ∀ a ∈ [Arrival.of 1 6 8, .of 1 8 10], a.Timely 1 := by
  intro a ha
  rcases List.mem_pair.mp ha with rfl | rfl
  · exact .of (by decide) (by decide)
  · exact .of (by decide) (by decide)

/-- A difference of eight is down to `49 / 8` with two packets. -/
theorem forgets_of_two : ∃ m₁ m₂, (before 8).receiveAll 1 [.of 1 6 8, .of 1 8 10] = .ok m₁ ∧
    (before 0).receiveAll 1 [.of 1 6 8, .of 1 8 10] = .ok m₂ ∧
    m₁.recSendEwma - m₂.recSendEwma = 49 / 8 := by
  obtain ⟨m₁, m₂, hrun₁, hrun₂⟩ := receiveAll_before
  have hsent : (before 0).lastTickSent = (before 8).lastTickSent := rfl
  have hreceived : (before 0).lastTickReceived = (before 8).lastTickReceived := rfl
  have h := (forgets (started_before 8) hsent hreceived timely_two hrun₁ hrun₂).1
  refine ⟨m₁, m₂, hrun₁, hrun₂, h.trans ?_⟩
  norm_num [before]

/-- After two packets that were sent at intervals of one and two milliseconds. -/
theorem averages_track_gaps_of_two : ∃ m, (before 8).receiveAll 1 [.of 1 6 8, .of 1 8 10] = .ok m ∧
    m.recSendEwma ∈ Set.Icc (1 + (7 / 8) ^ 2 * (8 - 1)) (2 + (7 / 8) ^ 2 * (8 - 2)) := by
  obtain ⟨m, -, hrun, -⟩ := receiveAll_before
  have hsent : ((before 8).lastTickSent :: echoes [Arrival.of 1 6 8, .of 1 8 10]).IsChain
      fun s t => 1 ≤ t - s ∧ t - s ≤ 2 := by
    decide +kernel
  have hreceived : ((before 8).lastTickReceived :: readings [Arrival.of 1 6 8, .of 1 8 10]).IsChain
      fun s t => 2 ≤ t - s ∧ t - s ≤ 2 := by
    decide +kernel
  exact ⟨m, hrun, (averages_track_gaps (started_before 8) timely_two hrun hsent hreceived).1⟩

end SenderMemory

end SendReceive
