import SendReceive.OpenLoop
import SendReceive.PollTimeout
import SendReceive.Timestamps

/-!
# What a transfer costs in timeouts

Acknowledgements never move the client's send window: only a timeout does.  So between two timeouts
no more than a window of packets leaves, and, when the window is open, at least one packet
leaves before the next timeout.  The number of timeouts of a transfer lies between the number of
windows it takes and the number of its packets, whatever is lost, delayed or repeated.

A round of the poller that times out waits for a second or more, which bounds what the client sends
in a given time.

## Main definitions

* `System.timeouts` — the number of timeouts in a run.
* `System.Epochs` — how far the client can be after so many timeouts.
* `System.WaitsOut` — the poller waits as long as it was told before it times out.

## Main results

* `System.exec_clientEvents` — the events of the client in a run of the system are a run of it.
* `System.timeouts_bound` — **the timeouts of a transfer**.
* `System.throughput_le` — **no more than a window leaves in a second**.
-/

namespace SendReceive

namespace System

open Transition (exec)

/-! ### The client in the system -/

/-- The events of the client. -/
def clientEvents (es : List Event) : List ClientRun.Event :=
  es.filterMap fun
    | .client e => some e
    | .serve _ _ _ => none

/-- A round of the poller that times out. -/
def Event.isTimeout : Event → Bool
  | .client (.poll .timeout _ _) => true
  | _ => false

/-- The number of timeouts in a run. -/
def timeouts (es : List Event) : ℕ := es.countP Event.isTimeout

theorem timeouts_concat (es : List Event) (e : Event) :
    timeouts (es ++ [e]) = timeouts es + e.isTimeout.toNat :=
  Transition.countP_concat _ es e

section Runs

variable [Platform] {n : UInt64} {server : Socket} {addr : Address} {sock : Socket}
  {t : WhiskerTree} {w : Whisker} {track : Bool} {M : ℕ}

/-- **The events of the client in a run of the system are a run of the client.** -/
theorem exec_clientEvents {es : List Event} : ∀ {s s' : System},
    exec (step n server) s es = some s' →
      exec (ClientRun.step n) s.run (clientEvents es) = some s'.run := by
  induction es with
  | nil =>
    intro s s' hrun
    rw [Option.some.inj hrun]
    rfl
  | cons e es ih =>
    intro s s' hrun
    rw [Transition.exec_cons] at hrun
    obtain ⟨m, hstep, hrest⟩ := Option.bind_eq_some_iff.mp hrun
    cases e with
    | client e =>
      show exec (ClientRun.step n) s.run (e :: clientEvents es) = some s'.run
      rw [Transition.exec_cons, clientStep_of_step hstep]
      exact ih hrest
    | serve request printedAt sentAt =>
      have hsame : m.run = s.run := by
        cases step_effect hstep with
        | serve now hmem hp => rfl
      rw [← hsame]
      exact ih hrest

/-- A reception does not move the acknowledgement of the client. -/
theorem largestAck_of_received {s : System} {d : Datagram} {q : Packet}
    {clock : Clock} {c : Client} (h : Inv n server s) (hd : d ∈ s.replies) (hq : d.packet = .ok q)
    (hc : s.run.client.Received q clock c) : c.largestAck = s.run.client.largestAck := by
  obtain ⟨p, q', -, hq', -, -, hseq, -⟩ := h.reply hd
  obtain rfl : q = q' := Except.ok.inj (hq.symm.trans hq')
  rw [hc.largestAck, hseq, zero_max]

/-! ### Epochs -/

/-- **How far the client can be** after `T` timeouts with windows of at most `M` packets. -/
structure Epochs (M T : ℕ) (s : System) : Prop where
  ack_le : s.run.client.largestAck.toNat ≤ T * M
  next_le : s.run.client.nextSeqnum.toNat ≤ (T + 1) * M

omit [Platform] in
/-- The guard of the inner loop keeps the client in the window. -/
theorem next_lt_of_maySend {c : Client} (hmay : ClientRun.maySend n c) :
    c.nextSeqnum.toNat < c.largestAck.toNat + c.theWindow.toNat := by
  unfold ClientRun.maySend at hmay
  simp only [Bool.and_eq_true, decide_eq_true_eq] at hmay
  have hguard := UInt64.lt_iff_toNat_lt.mp hmay.2
  rw [UInt64.toNat_add] at hguard
  exact lt_of_lt_of_le hguard (Nat.mod_le _ _)

/-- One step of an epoch. -/
theorem Epochs.step {T : ℕ} {s s' : System} {e : Event} (h : Epochs M T s) (hinv : Inv n server s)
    (hwindow : s.run.client.theWindow.toNat ≤ M) (heff : Effect n server s e s') :
    Epochs M (T + e.isTimeout.toNat) s' := by
  obtain ⟨hack, hnext⟩ := h
  cases heff with
  | serve now hmem hp => exact ⟨hack, hnext⟩
  | client hreceived heff =>
    cases heff with
    | send hpc hmay hdue =>
      obtain ⟨-, hsucc⟩ := ClientRun.toNat_next_succ hmay
      have hguard := next_lt_of_maySend hmay
      have hM : (T + 1) * M = T * M + M := Nat.succ_mul T M
      refine ⟨hack, ?_⟩
      show (s.run.client.nextSeqnum + 1).toNat ≤ (T + 1) * M
      rw [hsucc, hM]
      omega
    | timeout hpc =>
      refine ⟨hnext, le_trans hnext (Nat.mul_le_mul_right M ?_)⟩
      exact Nat.le_succ (T + 1)
    | @receive revents d q clock client hpc hread hq hc =>
      have hd : d ∈ s.replies := hreceived d (by rw [ClientRun.Event.received, if_pos hread]; rfl)
      refine ⟨?_, ?_⟩
      · rw [largestAck_of_received hinv hd hq hc]
        exact hack
      · rw [hc.nextSeqnum]
        exact hnext
    | _ => exact ⟨hack, hnext⟩

/-- The window of a client that runs is one of the windows of its rule. -/
theorem window_of_exec (hw : t.whisker .init = .ok (some w)) {es : List Event} {s : System}
    (hrun : exec (step n server) (start addr sock t track) es = some s) (hrunning : s.Running) :
    ∃ window, w.windows (receptions es + 1) = .ok window ∧
      s.run.client.theWindow.toNat = window.toNat := by
  have hdecision : t.decisionFor .init = .ok (some w.decision) := by
    rw [WhiskerTree.decisionFor, hw]
    rfl
  obtain ⟨window, hwindow, heq⟩ := map_eq_ok.mp (oneRule_of_exec hdecision hrun hrunning).window
  refine ⟨window, hwindow, ?_⟩
  rw [← heq, UInt32.toNat_toUInt64]

theorem Epochs.exec (hw : t.whisker .init = .ok (some w))
    (hM : ∀ k window, w.windows (k + 1) = .ok window → window.toNat ≤ M) {es : List Event}
    {s : System} (hrun : exec (System.step n server) (System.start addr sock t track) es = some s) :
    Epochs M (timeouts es) s := by
  refine Transition.exec_induct (P := fun es s => Epochs M (timeouts es) s) ?_ ?_ es s hrun
  · obtain ⟨whiskers', theWindow, intersend, -, hc⟩ := ClientRun.client_start addr sock t track
    refine ⟨?_, ?_⟩
    · rw [System.start, hc]
      exact Nat.zero_le _
    · rw [System.start, hc]
      exact Nat.zero_le _
  · intro es s e s' hes ih hstep
    have heff := step_effect hstep
    rw [timeouts_concat]
    cases e with
    | serve request printedAt sentAt =>
      cases heff with
      | serve now hmem hp => exact ⟨ih.ack_le, ih.next_le⟩
    | client e =>
      -- a client that does something was running
      obtain ⟨window, hwindow, heq⟩ := window_of_exec hw hes heff.of_client.2.not_stopped
      exact ih.step (Inv.exec hes) (heq.le.trans (hM _ window hwindow)) heff

/-! ### Progress -/

/-- **What the client has done** after `T` timeouts, when its window is open. -/
structure Opened (n : UInt64) (T : ℕ) (s : System) : Prop where
  le_ack : T ≤ s.run.client.largestAck.toNat
  inner : ∀ startSending, s.run.pc = .inner startSending →
    s.run.client.largestAck.toNat < n.toNat
  polling : s.run.pc = .polling → T + 1 ≤ s.run.client.nextSeqnum.toNat

/-- One step with an open window. -/
theorem Opened.step {T : ℕ} {s s' : System} {e : Event} (hn : n.toNat ≤ 2 ^ 64 - 1000001)
    (h : Opened n T s) (hinv : Inv n server s) (hwindow : 1 ≤ s.run.client.theWindow.toNat)
    (heff : Effect n server s e s') : Opened n (T + e.isTimeout.toNat) s' := by
  have hackle := hinv.ack_le
  have hnextle := hinv.run.next_le
  have hwindowle := hinv.run.window_le
  cases heff with
  | serve now hmem hp => exact ⟨h.le_ack, h.inner, h.polling⟩
  | client hreceived heff =>
    cases heff with
    | enter hpc hnext =>
      have hlt := UInt64.lt_iff_toNat_lt.mp hnext
      exact ⟨h.le_ack, fun _ _ => lt_of_le_of_lt hackle hlt, fun hpc => by cases hpc⟩
    | send hpc hmay hdue =>
      refine ⟨h.le_ack, fun _ _ => h.inner _ hpc, fun hpc' => ?_⟩
      cases hpc.symm.trans hpc'
    | leave hpc hmay utility =>
      have hack := h.le_ack
      have hinner := h.inner _ hpc
      refine ⟨hack, fun _ hpc' => (by cases hpc'), fun _ => ?_⟩
      show T + 1 ≤ s.run.client.nextSeqnum.toNat
      -- the guard fails at the end of the transfer or at the end of the window
      by_contra hlt
      refine hmay ?_
      unfold ClientRun.maySend
      rw [Bool.and_eq_true, decide_eq_true_eq, decide_eq_true_eq, UInt64.lt_iff_toNat_lt,
        UInt64.lt_iff_toNat_lt, UInt64.toNat_add]
      omega
    | timeout hpc =>
      refine ⟨h.polling hpc, fun _ hpc' => (by cases hpc'), fun hpc' => (by cases hpc')⟩
    | @receive revents d q clock client hpc hread hq hc =>
      have hd : d ∈ s.replies := hreceived d (by rw [ClientRun.Event.received, if_pos hread]; rfl)
      refine ⟨?_, fun _ hpc' => (by cases hpc'), fun hpc' => (by cases hpc')⟩
      rw [largestAck_of_received hinv hd hq hc]
      exact h.le_ack
    | wait hpc => exact ⟨h.le_ack, h.inner, h.polling⟩
    | _ => exact ⟨h.le_ack, fun _ hpc' => (by cases hpc'), fun hpc' => (by cases hpc')⟩

theorem Opened.exec (hn : n.toNat ≤ 2 ^ 64 - 1000001) (hw : t.whisker .init = .ok (some w))
    (hopen : ∀ k window, w.windows (k + 1) = .ok window → 1 ≤ window.toNat) {es : List Event}
    {s : System}
    (hrun : exec (System.step n server) (System.start addr sock t track) es = some s) :
    Opened n (timeouts es) s := by
  refine Transition.exec_induct (P := fun es s => Opened n (timeouts es) s) ?_ ?_ es s hrun
  · refine ⟨Nat.zero_le _, fun startSending hpc => ?_, fun hpc => ?_⟩
    all_goals
      rcases ClientRun.start_cases addr sock t track with ⟨why, hstart⟩ | ⟨c, -, hstart⟩
      all_goals
        rw [System.start, hstart] at hpc
        cases hpc
  · intro es s e s' hes ih hstep
    have heff := step_effect hstep
    rw [timeouts_concat]
    cases e with
    | serve request printedAt sentAt =>
      cases heff with
      | serve now hmem hp => exact ⟨ih.le_ack, ih.inner, ih.polling⟩
    | client e =>
      obtain ⟨window, hwindow, heq⟩ := window_of_exec hw hes heff.of_client.2.not_stopped
      exact ih.step hn (Inv.exec hes) ((hopen _ window hwindow).trans heq.ge) heff

/-- **The timeouts of a transfer.**  When the rule for the empty memory always gives windows of one
to `M` packets, then at each point of a run, whatever the network does, there were at most as many
timeouts as packets, and a window of packets for each timeout and one more; so a transfer that is
completed took a timeout for each window of packets but one. -/
theorem timeouts_bound (hn : n.toNat ≤ 2 ^ 64 - 1000001) (hw : t.whisker .init = .ok (some w))
    (hM : ∀ k window, w.windows (k + 1) = .ok window → 1 ≤ window.toNat ∧ window.toNat ≤ M)
    {es : List Event} {s : System}
    (hrun : exec (step n server) (start addr sock t track) es = some s) :
    timeouts es ≤ s.run.sent.length ∧ s.run.sent.length ≤ (timeouts es + 1) * M ∧
      ∀ s', step n server s (.client .finish) = some s' →
        timeouts es ≤ n.toNat ∧ n.toNat ≤ (timeouts es + 1) * M := by
  have hinv := Inv.exec hrun
  have hepochs := Epochs.exec hw (fun k window h => (hM k window h).2) hrun
  have hopened := Opened.exec hn hw (fun k window h => (hM k window h).1) hrun
  have hlower := hopened.le_ack.trans hinv.ack_le
  rw [hinv.run.length_sent]
  refine ⟨hlower, hepochs.next_le, fun s' hstep => ?_⟩
  -- the loops are left when nothing is left to send
  have hnext := (step_effect hstep).of_client.2.not_lt_of_finish
  rw [UInt64.lt_iff_toNat_lt] at hnext
  exact ⟨hlower.trans hinv.run.next_le, (not_lt.mp hnext).trans hepochs.next_le⟩

/-! ### Time -/

/-- **The poller waits as long as it was told** before it times out: whatever the client's clock
shows afterwards is later than what it showed before by the timeout at least. -/
def WaitsOut (n : UInt64) (server : Socket) (s₀ : System) (es : List Event) : Prop :=
  ∀ before incoming clock after m,
    es = before ++ .client (.poll .timeout incoming clock) :: after →
    exec (step n server) s₀ before = some m →
    ∀ a ∈ clientReadings before, ∀ b ∈ clientReadings after,
      (a.toNat : ℤ) + m.run.client.rto.toUInt32.toInt32.toInt ≤ b.toNat

/-- What is said of a run is said of its beginning. -/
theorem WaitsOut.of_concat {s₀ : System} {es : List Event} {e : Event}
    (h : WaitsOut n server s₀ (es ++ [e])) : WaitsOut n server s₀ es := by
  rintro before incoming clock after m rfl hm a ha b hb
  refine h before incoming clock (after ++ [e]) m ?_ hm a ha b ?_
  · rw [List.append_assoc, List.cons_append]
  · rw [clientReadings_append]
    exact List.mem_append_left _ hb

/-- What is assumed of the time in a run: the clock shows times from `first` on, the poller waits as
long as it was told, and no round-trip time is longer than `R`. -/
structure Timely (n : UInt64) (server : Socket) (s₀ : System) (first R : ℕ) (es : List Event) :
    Prop where
  first_le : ∀ b ∈ clientReadings es, first ≤ b.toNat
  waits : WaitsOut n server s₀ es
  samples : ∀ e ∈ clientEvents es, ∀ r ∈ e.sample, r.toNat ≤ R

theorem Timely.of_concat {s₀ : System} {first R : ℕ} {es : List Event} {e : Event}
    (h : Timely n server s₀ first R (es ++ [e])) : Timely n server s₀ first R es where
  first_le b hb := h.first_le b (by
    rw [clientReadings_append]
    exact List.mem_append_left _ hb)
  waits := h.waits.of_concat
  samples x hx := h.samples x (by
    rw [clientEvents, List.filterMap_append]
    exact List.mem_append_left _ hx)

/-- A round of the poller that times out takes a second or more. -/
theorem Timely.second_le {first R : ℕ} {before after : List Event} {incoming : Option Datagram}
    {clock : Clock} {m : System} (hR : 5 * R < 2 ^ 31)
    (h : Timely n server (start addr sock t track) first R
      (before ++ .client (.poll .timeout incoming clock) :: after))
    (hm : exec (step n server) (start addr sock t track) before = some m) {a b : UInt64}
    (ha : a ∈ clientReadings before) (hb : b ∈ clientReadings after) :
    a.toNat + 1000 ≤ b.toNat := by
  have hwait := h.waits before incoming clock after m rfl hm a ha b hb
  have hsamples : ∀ e ∈ clientEvents before, ∀ r ∈ e.sample, r.toNat ≤ R := by
    intro e he
    refine h.samples e ?_
    rw [clientEvents, List.filterMap_append]
    exact List.mem_append_left _ he
  have htimed := ClientRun.Timed.exec hR (exec_clientEvents hm) hsamples
  have hge := htimed.rto_ge
  have hle := htimed.rto_le
  rw [ClientRun.toInt_narrowed (by omega)] at hwait
  omega

/-- **How late it is** after `T` timeouts, on a clock that starts at `first`, and what was sent. -/
structure Waited (n : UInt64) (server : Socket) (s₀ : System) (first M T : ℕ) (es : List Event)
    (s : System) : Prop where
  /-- The last timeout came after the time for all those before it. -/
  last : T = 0 ∨ ∃ before incoming clock after m,
    es = before ++ .client (.poll .timeout incoming clock) :: after ∧
    exec (step n server) s₀ before = some m ∧
    ∃ c ∈ clientReadings before, first + 1000 * T ≤ c.toNat + 1000
  /-- The clock was read after it. -/
  reading : (∃ startSending, s.run.pc = .inner startSending) ∨ s.run.pc = .polling →
    ∃ c ∈ clientReadings es, first + 1000 * T ≤ c.toNat
  sent : s.run.sent.length = 0 ∨ ∃ K, s.run.sent.length ≤ (K + 1) * M ∧
    ∃ c ∈ clientReadings es, first + 1000 * K ≤ c.toNat

/-- A step without a timeout, after which the clock was read when the client is in the inner loop or
behind it, and that sends nothing. -/
theorem Waited.of_frame {s₀ s s' : System} {first T : ℕ} {es : List Event} {e : Event}
    (h : Waited n server s₀ first M T es s) (hsent : s'.run.sent = s.run.sent)
    (hreading : (∃ startSending, s'.run.pc = .inner startSending) ∨ s'.run.pc = .polling →
      ∃ c ∈ clientReadings (es ++ [e]), first + 1000 * T ≤ c.toNat) :
    Waited n server s₀ first M T (es ++ [e]) s' := by
  refine ⟨?_, hreading, ?_⟩
  · rcases h.last with hzero | ⟨before, incoming, clock, after, m, rfl, hm, hc⟩
    · exact Or.inl hzero
    · refine Or.inr ⟨before, incoming, clock, after ++ [e], m, ?_, hm, hc⟩
      rw [List.append_assoc, List.cons_append]
  · rw [hsent]
    rcases h.sent with hzero | ⟨K, hK, c, hc, hle⟩
    · exact Or.inl hzero
    · refine Or.inr ⟨K, hK, c, ?_, hle⟩
      rw [clientReadings_append]
      exact List.mem_append_left _ hc

/-- The clock that was read in the inner loop, or behind it, is still late enough. -/
theorem Waited.reading_concat {s₀ s : System} {first T : ℕ} {es : List Event}
    (h : Waited n server s₀ first M T es s)
    (hpc : (∃ startSending, s.run.pc = .inner startSending) ∨ s.run.pc = .polling) (e : Event) :
    ∃ c ∈ clientReadings (es ++ [e]), first + 1000 * T ≤ c.toNat := by
  obtain ⟨c, hc, hle⟩ := h.reading hpc
  refine ⟨c, ?_, hle⟩
  rw [clientReadings_append]
  exact List.mem_append_left _ hc

/-- The outer loop is entered: the clock shows the time after the last timeout. -/
theorem Waited.enter {s : System} {first R T : ℕ} {es : List Event} {now : UInt64}
    (hR : 5 * R < 2 ^ 31)
    (h : Waited n server (start addr sock t track) first M T es s)
    (htimely : Timely n server (start addr sock t track) first R (es ++ [.client (.enter now)])) :
    first + 1000 * T ≤ now.toNat := by
  rcases h.last with rfl | ⟨before, incoming, clock, after, m, rfl, hm, c, hc, hle⟩
  · refine htimely.first_le now ?_
    rw [clientReadings_append]
    exact List.mem_append_right _ List.mem_cons_self
  · rw [List.append_assoc, List.cons_append] at htimely
    have hlater := htimely.second_le hR hm hc (b := now) (by
      rw [clientReadings_append]
      exact List.mem_append_right _ List.mem_cons_self)
    omega

/-- One step in time. -/
theorem Waited.step {s s' : System} {first R T : ℕ} {es : List Event} {e : Event}
    (hR : 5 * R < 2 ^ 31) (h : Waited n server (System.start addr sock t track) first M T es s)
    (hrun : exec (System.step n server) (System.start addr sock t track) es = some s)
    (htimely : Timely n server (System.start addr sock t track) first R (es ++ [e]))
    (heff : Effect n server s e s')
    (hsent : s'.run.sent.length ≤ (T + e.isTimeout.toNat + 1) * M) :
    Waited n server (System.start addr sock t track) first M (T + e.isTimeout.toNat) (es ++ [e])
      s' := by
  cases heff with
  | serve now hmem hp => exact h.of_frame rfl fun hpc => h.reading_concat hpc _
  | client hreceived heff =>
    cases heff with
    | @enter now hpc hnext =>
      refine h.of_frame rfl fun _ => ⟨now, ?_, h.enter hR htimely⟩
      rw [clientReadings_append]
      exact List.mem_append_right _ List.mem_cons_self
    | @send now sentAt startSending hpc hmay hdue =>
      have hframe : Waited n server (System.start addr sock t track) first M T
          (es ++ [.client (.send now sentAt true)]) s :=
        h.of_frame rfl fun hpc' => h.reading_concat hpc' _
      have hreading := hframe.reading (Or.inl ⟨_, hpc⟩)
      exact ⟨hframe.last, fun _ => hreading, Or.inr ⟨T, hsent, hreading⟩⟩
    | wait hpc => exact h.of_frame rfl fun hpc' => h.reading_concat hpc' _
    | leave hpc => exact h.of_frame rfl fun _ => h.reading_concat (Or.inl ⟨_, hpc⟩) _
    | @timeout incoming hpc =>
      obtain ⟨c, hc, hle⟩ := h.reading (Or.inr hpc)
      have hframe : Waited n server (System.start addr sock t track) first M T
          (es ++ [.client (.poll .timeout incoming [])]) s :=
        h.of_frame rfl fun hpc' => h.reading_concat hpc' _
      refine ⟨Or.inr ⟨es, incoming, [], [], s, rfl, hrun, c, hc, ?_⟩, by simp, hframe.sent⟩
      show first + 1000 * (T + 1) ≤ c.toNat + 1000
      omega
    | _ => exact h.of_frame rfl (by simp)

theorem Waited.exec (hw : t.whisker .init = .ok (some w))
    (hM : ∀ k window, w.windows (k + 1) = .ok window → window.toNat ≤ M) {first R : ℕ}
    (hR : 5 * R < 2 ^ 31) {es : List Event} {s : System}
    (hrun : exec (System.step n server) (System.start addr sock t track) es = some s)
    (htimely : Timely n server (System.start addr sock t track) first R es) :
    Waited n server (System.start addr sock t track) first M (timeouts es) es s := by
  refine Transition.exec_induct (P := fun es s =>
    Timely n server (System.start addr sock t track) first R es →
      Waited n server (System.start addr sock t track) first M (timeouts es) es s) ?_ ?_ es s hrun
    htimely
  · intro _
    have hsent : (System.start addr sock t track).run.sent = [] :=
      ClientRun.sent_start addr sock t track
    refine ⟨Or.inl rfl, fun hpc => ?_, Or.inl (by rw [hsent]; rfl)⟩
    rcases ClientRun.start_cases addr sock t track with ⟨why, hstart⟩ | ⟨c, -, hstart⟩
    all_goals
      rw [System.start, hstart] at hpc
      simp at hpc
  · intro es s e s' hes ih hstep htimely
    have hes' := Transition.exec_snoc.mpr ⟨s, hes, hstep⟩
    have hepochs := Epochs.exec hw hM hes'
    have hlength := (Inv.exec hes').run.length_sent
    have heff := step_effect hstep
    rw [timeouts_concat] at hepochs ⊢
    exact (ih htimely.of_concat).step hR hes htimely heff (hlength.le.trans hepochs.next_le)

/-- **No more than a window leaves in a second.**  In every run against the server in which the
poller waits as long as it was told, and all that the client's clock shows lies between `first` and
`last`, the number of packets is at most one window for each whole second in between and one more:
the acknowledgements that come in do not make the client any faster. -/
theorem throughput_le (hw : t.whisker .init = .ok (some w))
    (hM : ∀ k window, w.windows (k + 1) = .ok window → window.toNat ≤ M) {first last R : ℕ}
    (hR : 5 * R < 2 ^ 31) {es : List Event} {s : System}
    (hrun : exec (step n server) (start addr sock t track) es = some s)
    (htimely : Timely n server (start addr sock t track) first R es)
    (hlast : ∀ b ∈ clientReadings es, b.toNat ≤ last) :
    s.run.sent.length ≤ ((last - first) / 1000 + 1) * M := by
  rcases (Waited.exec hw hM hR hrun htimely).sent with hzero | ⟨K, hK, c, hc, hle⟩
  · omega
  · have hc' := hlast c hc
    refine hK.trans (Nat.mul_le_mul_right M ?_)
    omega

end Runs

/-! ### Stop and wait -/

/-- A rule whose window is always one packet. -/
def stopAndWait : Whisker := { Whisker.ofDomain WhiskerTree.rootDomain with windowMultiple := 0 }

theorem window_stopAndWait {previous window : UInt32}
    (h : stopAndWait.window previous = .ok window) : window.toNat = 1 := by
  have hmul : stopAndWait.windowMultiple = 0 := rfl
  have hinc : stopAndWait.windowIncrement.toInt = ((1 : ℕ) : ℤ) := rfl
  rw [Whisker.window_eq_ok h, hmul, hinc, mul_zero, zero_add, Int.cast_natCast,
    truncate_of_nonneg (Nat.cast_nonneg _), Int.floor_natCast]
  decide

theorem windows_stopAndWait {k : ℕ} {window : UInt32}
    (h : stopAndWait.windows (k + 1) = .ok window) : window.toNat = 1 := by
  obtain ⟨previous, -, hwindow⟩ := bind_eq_ok.mp h
  exact window_stopAndWait hwindow

/-- Two packets, and a timeout in between, of a client with a window of one packet. -/
def twoWindows : List Event :=
  [.client (.enter 1), .client (.send 5 5 true), .client (.leave 6),
    .client (.poll .timeout none []), .client (.enter 1010), .client (.send 1011 1012 true)]

theorem exec_twoWindows : letI := gcc48
    ∃ s, exec (step 2 ⟨⟨1, 9⟩⟩)
        (start ⟨1, 9⟩ ⟨⟨2, 8⟩⟩ (.leaf WhiskerTree.rootDomain stopAndWait) false) twoWindows
      = some s ∧ s.run.sent.length = 2 := by
  let _ := gcc48
  have hexec : (exec (step 2 ⟨⟨1, 9⟩⟩)
      (start ⟨1, 9⟩ ⟨⟨2, 8⟩⟩ (.leaf WhiskerTree.rootDomain stopAndWait) false) twoWindows).map
        (·.run.sent.length) = some 2 := by
    decide +kernel
  exact Option.map_eq_some_iff.mp hexec

/-- The second packet of a client with a window of one needs a timeout. -/
theorem timeouts_bound_of_two : letI := gcc48
    ∃ s : System, exec (step 2 ⟨⟨1, 9⟩⟩)
        (start ⟨1, 9⟩ ⟨⟨2, 8⟩⟩ (.leaf WhiskerTree.rootDomain stopAndWait) false) twoWindows
      = some s ∧ timeouts twoWindows ≤ s.run.sent.length ∧
        s.run.sent.length ≤ timeouts twoWindows + 1 := by
  let _ := gcc48
  obtain ⟨s, hrun, -⟩ := exec_twoWindows
  have hrule : WhiskerTree.whisker (.leaf WhiskerTree.rootDomain stopAndWait) .init
      = .ok (some stopAndWait) := by
    rfl
  obtain ⟨hlower, hupper, -⟩ := timeouts_bound (M := 1) (by decide) hrule
    (fun k window h => by
      have hone := windows_stopAndWait h
      omega) hrun
  exact ⟨s, hrun, hlower, by omega⟩

theorem waitsOut_twoWindows : letI := gcc48
    WaitsOut 2 ⟨⟨1, 9⟩⟩
      (start ⟨1, 9⟩ ⟨⟨2, 8⟩⟩ (.leaf WhiskerTree.rootDomain stopAndWait) false) twoWindows := by
  let _ := gcc48
  intro before incoming clock after m heq hm a ha b hb
  -- there is only one timeout
  obtain ⟨rfl, rfl⟩ : before = twoWindows.take 3 ∧ after = twoWindows.drop 4 := by
    rcases before with _ | ⟨_, _ | ⟨_, _ | ⟨_, _ | ⟨_, _ | ⟨_, _ | ⟨_, _⟩⟩⟩⟩⟩⟩
    all_goals simp_all [twoWindows]
  have hrto : (exec (step 2 ⟨⟨1, 9⟩⟩)
      (start ⟨1, 9⟩ ⟨⟨2, 8⟩⟩ (.leaf WhiskerTree.rootDomain stopAndWait) false)
      (twoWindows.take 3)).map (·.run.client.rto) = some 1000 := by
    decide +kernel
  rw [hm] at hrto
  have hthousand : m.run.client.rto = 1000 := Option.some.inj hrto
  have hnarrow : (1000 : UInt64).toUInt32.toInt32.toInt = 1000 := rfl
  have ha : a ∈ [(1 : UInt64), 5, 5, 6] := ha
  have hb : b ∈ [(1010 : UInt64), 1011, 1012] := hb
  rw [hthousand, hnarrow]
  fin_cases ha <;> fin_cases hb <;> decide

theorem throughput_le_of_two : letI := gcc48
    ∃ s : System, exec (step 2 ⟨⟨1, 9⟩⟩)
        (start ⟨1, 9⟩ ⟨⟨2, 8⟩⟩ (.leaf WhiskerTree.rootDomain stopAndWait) false) twoWindows
      = some s ∧ s.run.sent.length ≤ (1012 - 1) / 1000 + 1 := by
  let _ := gcc48
  obtain ⟨s, hrun, -⟩ := exec_twoWindows
  have hrule : WhiskerTree.whisker (.leaf WhiskerTree.rootDomain stopAndWait) .init
      = .ok (some stopAndWait) := by
    rfl
  have htimely : Timely 2 ⟨⟨1, 9⟩⟩
      (start ⟨1, 9⟩ ⟨⟨2, 8⟩⟩ (.leaf WhiskerTree.rootDomain stopAndWait) false) 1 0 twoWindows := by
    refine ⟨?_, waitsOut_twoWindows, ?_⟩
    · intro b hb
      have hb : b ∈ [(1 : UInt64), 5, 5, 6, 1010, 1011, 1012] := hb
      fin_cases hb <;> decide
    · -- nothing is received
      intro e he r hr
      have hnone : e.sample = none := by
        have hmap : (clientEvents twoWindows).map (·.sample) = List.replicate 6 none := rfl
        exact List.eq_of_mem_replicate (hmap ▸ List.mem_map_of_mem he)
      rw [hnone] at hr
      cases hr
  have hlast : ∀ b ∈ clientReadings twoWindows, b.toNat ≤ 1012 := by
    intro b hb
    have hb : b ∈ [(1 : UInt64), 5, 5, 6, 1010, 1011, 1012] := hb
    fin_cases hb <;> decide
  have hle := throughput_le (M := 1) hrule (fun k window h => (windows_stopAndWait h).le)
    (by norm_num) hrun htimely hlast
  exact ⟨s, hrun, by omega⟩

end System

end SendReceive
