import SendReceive.OpenLoop
import SendReceive.Timestamps

/-!
# The two programs survive each other

A datagram can stop the client in many ways: it is too long or too short, an assertion fails, a
conversion is undefined, no rule covers the memory.  None of them happens with what
the server sends, however late or often it comes: the client is stopped only when the system
refuses it a call.  The server survives whatever the client sends.

## Main definitions

* `System.Event.refused`, `ClientRun.Event.refusal` — a call of the system that fails, and the
  exception for it.
* `Whisker.Lasting` — a rule that can be asked over and over.

## Main results

* `ClientRun.stopped_of_step` — what stops a client.
* `System.clock_of_receive_reply` — a datagram of the server does not stop the client.
* `System.survives_iff` — **the client runs as long as the system does not refuse it a call**.
-/

namespace SendReceive

open Transition (exec)

/-- A rule whose windows are defined however often it is asked, and whose intersend time is. -/
structure Whisker.Lasting (w : Whisker) : Prop where
  windows : ∀ k, ∃ window, w.windows k = .ok window
  intersend : ∃ intersend, toUInt64 w.intersend = .ok intersend

/-- The rules the training makes are lasting. -/
theorem Whisker.InRange.lasting {w : Whisker} (h : w.InRange) : w.Lasting := by
  obtain ⟨hinc, hinc', hmul, hmul', hint, hint'⟩ := h
  refine ⟨fun k => ?_, ?_⟩
  · induction k with
    | zero => exact ⟨0, rfl⟩
    | succ k ih =>
      obtain ⟨previous, hprevious⟩ := ih
      have hclamped : previous.toNat ≤ 1000000 := by
        cases k with
        | zero =>
          obtain rfl := Except.ok.inj hprevious
          exact Nat.zero_le _
        | succ k =>
          obtain ⟨before, -, hwindow⟩ := bind_eq_ok.mp hprevious
          exact window_le hwindow
      have hincle : (w.windowIncrement.toInt : DataType) ≤ 256 := by exact_mod_cast hinc'
      have hincpos : (0 : DataType) ≤ w.windowIncrement.toInt := by exact_mod_cast hinc
      have hmul0 : (0 : DataType) ≤ w.windowMultiple := hmul
      have hmul1 : w.windowMultiple ≤ 1 := hmul'
      obtain ⟨hlow, hhigh⟩ := w.rawWindow_between hclamped
      have hfits : -(2 ^ 31 + 1) < w.rawWindow previous ∧ w.rawWindow previous < 2 ^ 31 :=
        ⟨lt_of_lt_of_le (lt_min (by linarith) (by linarith)) hlow,
          lt_of_le_of_lt hhigh (max_lt (by linarith) (by linarith))⟩
      obtain ⟨window, hwindow⟩ := exists_window_iff.mpr (fits_iff.mpr hfits)
      refine ⟨window, ?_⟩
      rw [windows, hprevious]
      exact hwindow
  · have hpos : (0 : DataType) ≤ w.intersend := le_trans (by norm_num [getOptimizer]) hint
    have hlow := le_truncate (x := w.intersend) (n := 0) le_rfl (by exact_mod_cast hpos)
    have hhigh := (truncate_lt_iff (x := w.intersend) (n := 2 ^ 64) (by norm_num)).mpr
      (lt_of_le_of_lt hint' (by norm_num [getOptimizer]))
    exact ⟨_, if_pos ⟨hlow, hhigh⟩⟩

/-- A rule that a table decides on can be used. -/
theorem WhiskerTree.exists_useWhisker {t : WhiskerTree} {m : Memory}
    {decision : Int32 × DataType × DataType} (h : t.decisionFor m = .ok (some decision))
    (track : Bool) : ∃ w t', t.useWhisker m track = .ok (w, t') ∧ w.decision = decision := by
  rw [decisionFor_eq_visit t m track] at h
  obtain ⟨found, hvisit, hfound⟩ := map_eq_ok.mp h
  obtain ⟨⟨w, t'⟩, rfl, hw⟩ := Option.map_eq_some_iff.mp hfound
  refine ⟨w, t', ?_, hw⟩
  rw [useWhisker_eq, hvisit]
  rfl

/-! ### The callback -/

namespace Client

variable {t : WhiskerTree} {w : Whisker} {track : Bool} {k : ℕ} {c : Client}

/-- A lookup comes to its end when the table has a rule for the memory that gives a window. -/
theorem exists_setWindowIntersend (hw : c.whiskers.decisionFor c.memory = .ok (some w.decision))
    (hwindow : ∃ window, w.window c.theWindow.toUInt32 = .ok window)
    (hintersend : ∃ intersend, toUInt64 w.intersend = .ok intersend) :
    ∃ c', c.setWindowIntersend = .ok c' := by
  obtain ⟨w', whiskers, hused, hw'⟩ := WhiskerTree.exists_useWhisker hw c.track
  obtain ⟨window, hwindow⟩ := hwindow
  obtain ⟨intersend, hintersend⟩ := hintersend
  rw [← Whisker.window_eq_of_decision hw'] at hwindow
  rw [← Whisker.intersend_eq_of_decision hw'] at hintersend
  unfold setWindowIntersend
  rw [hused, ok_bind]
  dsimp only
  rw [hwindow, ok_bind, hintersend, ok_bind]
  exact ⟨_, rfl⟩

/-- One more lookup in the empty memory comes to its end. -/
theorem OneRule.exists_setWindowIntersend (h : OneRule t w track k c)
    (hw : t.decisionFor .init = .ok (some w.decision)) (hlasting : w.Lasting)
    (hmemory : c.memory = .init) (largestAck : UInt64) :
    ∃ c', setWindowIntersend { c with largestAck := largestAck } = .ok c' := by
  obtain ⟨previous, hprevious, hold⟩ := map_eq_ok.mp h.window
  obtain ⟨window, hwindow⟩ := hlasting.windows (k + 1 + 1)
  rw [Whisker.windows, hprevious, ok_bind, ← toUInt32_theWindow hold.symm] at hwindow
  refine Client.exists_setWindowIntersend ?_ ⟨window, hwindow⟩ hlasting.intersend
  -- the table still has a rule for the memory
  show c.whiskers.decisionFor c.memory = _
  rw [hmemory, WhiskerTree.Alike.of_useAll h.table .init, hw]

/-- **The callback comes to its end** on a packet of another flow that was stamped before: only a
reading of the clock can be missing. -/
theorem receive_of_other_flow {d : Datagram} {q : Packet} {clock : Clock} {why : Stop}
    (hmtu : d.bytes.length ≤ receiveMtu) (hq : d.packet = .ok q)
    (hflow : q.flowId ≠ c.flowId.toUInt32.toUInt64)
    (hset : ∃ c', setWindowIntersend { c with largestAck := max q.sequenceNumber c.largestAck }
      = .ok c')
    (hclock : ∀ now ∈ clock, q.echoReplyTimestamp ≤ now)
    (h : c.receive (some d) clock = .error why) : why = .clock := by
  obtain ⟨c', hset⟩ := hset
  have hreceived : c.packetReceived q clock = .ok (c', clock) := by
    rw [packetReceived, MemoryOf.packetReceived_of_flowId_ne hflow, ok_bind]
    dsimp only
    rw [SenderMemory.point_eq_ok.mpr rfl, ok_bind, hset]
    rfl
  rw [receive, Socket.recv_of_le hmtu, hq, ok_bind, hreceived, ok_bind] at h
  dsimp only at h
  cases clock with
  | nil =>
    cases h
    rfl
  | cons now rest =>
    rw [updateTimeout_eq, ok_bind] at h
    cases rest with
    | nil =>
      cases h
      rfl
    | cons now' rest =>
      have hle : q.echoReplyTimestamp ≤ now' :=
        hclock now' (List.mem_cons_of_mem _ List.mem_cons_self)
      dsimp only at h
      rw [Utility.packetReceived, timestamp_cons, ok_bind] at h
      dsimp only at h
      rw [if_pos hle] at h
      cases h

end Client

/-! ### What stops the client -/

namespace ClientRun

variable [Platform] {n : UInt64} {r r' : ClientRun} {e : Event}

/-- The system refuses the client a call: `::sendto`, `::poll` or `::recvmsg` fails. -/
def Event.refused : Event → Bool
  | .send _ _ accepted => !accepted
  | .poll .error _ _ => true
  | .poll (.ready revents) none _ => Poller.readable (revents.headD 0)
  | _ => false

/-- The exception for the call of an event, when it fails. -/
def Event.refusal : Event → Stop
  | .send _ _ _ => .throw (.exception "sendto error")
  | .poll .error _ _ => .throw (.exception "poll")
  | _ => .throw (.exception "recvmsg")

/-- The exceptions for the calls that fail. -/
def refusals : List Stop :=
  [.throw (.exception "sendto error"), .throw (.exception "poll"), .throw (.exception "recvmsg")]

omit [Platform] in
theorem refusal_mem_refusals (e : Event) : e.refusal ∈ refusals := by
  unfold Event.refusal
  split <;> simp [refusals]

omit [Platform] in
/-- The handler of `main` sees to each of them. -/
theorem not_escapesMain_refusal (e : Event) : ¬ e.refusal.escapesMain := by
  unfold Event.refusal
  split <;> decide

omit [Platform] in
/-- A call that fails delivers nothing. -/
theorem received_of_refused {e : Event} (he : e.refused) : e.received = none := by
  unfold Event.received
  split
  · rename_i revents incoming clock
    cases incoming with
    | none => exact ite_self _
    | some d => cases he
  · rfl

/-- **What stops a client**: a call of the system that fails, or a datagram that came. -/
theorem stopped_of_step {why : Stop} (h : step n r e = some r') (hpc : r'.pc = .stopped why) :
    (e.refused ∧ why = e.refusal) ∨
    ∃ d, e.received = some d ∧ r.client.receive (some d) e.clock = .error why ∧ why ≠ .clock := by
  cases step_effect h with
  | @refused now sentAt startSending hinner hmay hdue why' =>
    unfold step at h
    rw [hinner] at h
    dsimp only at h
    rw [if_pos ⟨hmay, hdue⟩, sendTurn_refused] at h
    have hwhy := congrArg ClientRun.pc (Option.some.inj h)
    rw [hpc] at hwhy
    exact Or.inl ⟨rfl, (Pc.stopped.inj hwhy).symm⟩
  | @pollFails incoming clock hpolling why' =>
    unfold step at h
    rw [hpolling] at h
    dsimp only at h
    rw [Client.poll_receiveAction] at h
    have hwhy := congrArg ClientRun.pc (Option.some.inj h)
    rw [hpc] at hwhy
    exact Or.inl ⟨rfl, (Pc.stopped.inj hwhy).symm⟩
  | @dies revents incoming clock why' hpolling hread hfails =>
    obtain rfl := Pc.stopped.inj hpc
    cases incoming with
    | none =>
      refine Or.inl ⟨hread, ?_⟩
      cases hfails
      rfl
    | some d =>
      refine Or.inr ⟨d, ?_, hfails, ?_⟩
      · rw [Event.received, if_pos hread]
      · rintro rfl
        unfold step at h
        rw [hpolling] at h
        dsimp only at h
        rw [Client.poll_receiveAction] at h
        dsimp only at h
        rw [if_neg (Poller.readable_not_error hread), if_pos hread] at h
        unfold Client.Env.receive at h
        rw [hfails] at h
        cases h
  | wait hinner => cases hinner.symm.trans hpc
  | send hinner => cases hinner.symm.trans hpc
  | _ => cases hpc

/-- A call that the system refuses stops the client, with the exception for it. -/
theorem stopped_of_refused (h : step n r e = some r') (he : e.refused) :
    r'.pc = .stopped e.refusal := by
  have hstopped : ∃ why, r'.pc = .stopped why := by
    cases step_effect h with
    | refused hinner hmay hdue why => exact ⟨why, rfl⟩
    | pollFails hpolling why => exact ⟨why, rfl⟩
    | dies hpolling hread hfails => exact ⟨_, rfl⟩
    | @pollError revents incoming hpolling herror =>
      cases incoming with
      | none => exact absurd herror (Poller.readable_not_error he)
      | some d => cases he
    | @idle revents incoming hpolling herror hread =>
      cases incoming with
      | none => exact absurd he hread
      | some d => cases he
    | _ => cases he
  obtain ⟨why, hpc⟩ := hstopped
  rcases stopped_of_step h hpc with ⟨-, rfl⟩ | ⟨d, hd, -⟩
  · exact hpc
  · rw [received_of_refused he] at hd
    cases hd

end ClientRun

/-! ### Runs -/

namespace System

/-- The system refuses the client a call. -/
def Event.refused : Event → Bool
  | .client e => e.refused
  | .serve _ _ _ => false

section Runs

variable [Platform] {n : UInt64} {server : Socket} {addr : Address} {sock : Socket}
  {t : WhiskerTree} {w : Whisker} {track : Bool}

/-- What the server sends is short. -/
theorem length_reply_le {s : System} (h : Inv n server s) {d : Datagram} (hd : d ∈ s.replies) :
    d.bytes.length ≤ receiveMtu := by
  obtain ⟨request, -, p, now, -, rfl⟩ := h.replies d hd
  show ((Server.reply p).setSendTimestamp now).str.length ≤ receiveMtu
  rw [Packet.length_str]
  show 48 + 3 ≤ 2048
  norm_num

/-- A datagram of the server does not stop the client. -/
theorem clock_of_receive_reply (hw : t.whisker .init = .ok (some w)) (hlasting : w.Lasting)
    {es : List Event} {s s' : System} {e : ClientRun.Event}
    (hrun : exec (step n server) (start addr sock t track) es = some s) (hrunning : s.Running)
    (hstep : step n server s (.client e) = some s')
    (hclock : (clientReadings (es ++ [.client e])).Pairwise (· ≤ ·)) {d : Datagram} {why : Stop}
    (hd : e.received = some d) (hfails : s.run.client.receive (some d) e.clock = .error why) :
    why = .clock := by
  have hinv := Inv.exec hrun
  have hmem : d ∈ s.replies := by
    apply (step_effect hstep).of_client.1 d
    rw [hd]
    rfl
  obtain ⟨-, q, -, hq, -, hflow, -⟩ := hinv.reply hmem
  obtain ⟨request, q', hstamped, hq'⟩ := exists_stamped_of_reply hrun hmem
  obtain rfl : q = q' := Except.ok.inj (hq.symm.trans hq')
  have hdecision : t.decisionFor .init = .ok (some w.decision) := by
    rw [WhiskerTree.decisionFor, hw]
    rfl
  have hrule := oneRule_of_exec hdecision hrun hrunning
  refine Client.receive_of_other_flow (length_reply_le hinv hmem) hq ?_ ?_ ?_ hfails
  · rw [hflow, hinv.run.flowId]
    decide
  · exact hrule.exists_setWindowIntersend hdecision hlasting hinv.memory _
  · -- the stamp is a reading before those of the callback
    intro now hnow
    rw [clientReadings_append, clientReadings_cons] at hclock
    apply (List.pairwise_append.mp hclock).2.2 _ hstamped.mem_clientReadings
    rw [ClientRun.Event.readings_of_received hd]
    exact List.mem_append_left _ hnow

omit [Platform] in
/-- A client with a lasting rule comes to its loops. -/
theorem running_start (hw : t.whisker .init = .ok (some w)) (hlasting : w.Lasting)
    (addr : Address) (sock : Socket) (track : Bool) : (start addr sock t track).Running := by
  obtain ⟨window, hwindow⟩ := hlasting.windows 1
  have hdecision : t.decisionFor .init = .ok (some w.decision) := by
    rw [WhiskerTree.decisionFor, hw]
    rfl
  obtain ⟨c, hset⟩ := Client.exists_setWindowIntersend (c := .make addr sock t track) hdecision
    ⟨window, hwindow⟩ hlasting.intersend
  intro why
  rw [start, ClientRun.start, hset]
  exact Pc.noConfusion

/-- The server can answer whatever was sent. -/
theorem exists_serve {s₀ s : System} {es : List Event} (hstart : s₀.run.sent = [])
    (hrun : exec (step n server) s₀ es = some s) (request : Datagram) (hmem : request ∈ s.run.sent)
    (printedAt sentAt : UInt64) :
    ∃ s', step n server s (.serve request printedAt sentAt) = some s' := by
  obtain ⟨stamp, earlier, now, later, m, sent, p, -, -, hsend, hp, -⟩ :=
    stamped_of_mem hstart hrun request hmem
  have hmtu : request.bytes.length ≤ receiveMtu := by
    obtain ⟨-, hrest⟩ := Prod.mk.inj (Except.ok.inj hsend)
    obtain ⟨rfl, -⟩ := Prod.mk.inj hrest
    show (m.run.client.sendPacket.setSendTimestamp stamp).str.length ≤ receiveMtu
    rw [Packet.length_str]
    show 48 + 17 ≤ 2048
    norm_num
  have hrecv : Socket.recv (some request) = .ok p := by
    rw [Socket.recv_of_le hmtu, hp]
  simp only [step]
  rw [if_pos hmem, Server.loopBody_of_recv hrecv]
  exact ⟨_, rfl⟩

/-- What a step of the client comes to. -/
theorem stopped_iff_of_step (hw : t.whisker .init = .ok (some w)) (hlasting : w.Lasting)
    {es : List Event} {s s' : System} {e : ClientRun.Event}
    (hrun : exec (step n server) (start addr sock t track) es = some s)
    (hstep : step n server s (.client e) = some s')
    (hclock : (clientReadings (es ++ [.client e])).Pairwise (· ≤ ·)) (why : Stop) :
    s'.run.pc = .stopped why ↔ e.refused ∧ why = e.refusal := by
  have hstep' := clientStep_of_step hstep
  have hrunning : s.Running := (step_effect hstep).of_client.2.not_stopped
  constructor
  · intro hpc
    rcases ClientRun.stopped_of_step hstep' hpc with hrefused | ⟨d, hd, hfails, hclk⟩
    · exact hrefused
    · exact absurd (clock_of_receive_reply hw hlasting hrun hrunning hstep hclock hd hfails) hclk
  · rintro ⟨hrefused, rfl⟩
    exact ClientRun.stopped_of_refused hstep' hrefused

/-- In every run against the server, what stops a client with a lasting rule is a refusal. -/
theorem stopped_iff (hw : t.whisker .init = .ok (some w)) (hlasting : w.Lasting) {es : List Event}
    {s : System} (hrun : exec (step n server) (start addr sock t track) es = some s)
    (hclock : (clientReadings es).Pairwise (· ≤ ·)) (why : Stop) :
    s.run.pc = .stopped why ↔
      ∃ e : ClientRun.Event, .client e ∈ es ∧ e.refused ∧ why = e.refusal := by
  refine Transition.exec_induct
    (P := fun es s => (clientReadings es).Pairwise (· ≤ ·) → (s.run.pc = .stopped why ↔
      ∃ e : ClientRun.Event, .client e ∈ es ∧ e.refused ∧ why = e.refusal))
    ?_ ?_ es s hrun hclock
  · intro _
    have hstart := running_start hw hlasting addr sock track
    exact iff_of_false (hstart why) fun ⟨e, he, _⟩ => by cases he
  · intro es s e s' hes ih hstep hclock
    have hclock' : (clientReadings es).Pairwise (· ≤ ·) := by
      rw [clientReadings_append] at hclock
      exact (List.pairwise_append.mp hclock).1
    cases e with
    | serve request printedAt sentAt =>
      cases step_effect hstep with
      | serve now hmem hp =>
        refine (ih hclock').trans (exists_congr fun e => and_congr_left fun _ => ?_)
        rw [List.mem_append, List.mem_singleton]
        exact (or_iff_left fun h => by cases h).symm
    | client e =>
      rw [stopped_iff_of_step hw hlasting hes hstep hclock why]
      have hrunning : s.Running := (step_effect hstep).of_client.2.not_stopped
      constructor
      · intro h
        exact ⟨e, List.mem_append_right _ List.mem_cons_self, h⟩
      · rintro ⟨e', hmem, h⟩
        rcases List.mem_append.mp hmem with hbefore | hlast
        · -- a call refused before would have stopped the client
          exact absurd ((ih hclock').mpr ⟨e', hbefore, h⟩) (hrunning why)
        · obtain rfl := Event.client.inj (List.mem_singleton.mp hlast)
          exact h

/-- In every run against the server, a client with a lasting rule is stopped by refusals only. -/
theorem running_iff (hw : t.whisker .init = .ok (some w)) (hlasting : w.Lasting) {es : List Event}
    {s : System} (hrun : exec (step n server) (start addr sock t track) es = some s)
    (hclock : (clientReadings es).Pairwise (· ≤ ·)) :
    (s.Running ↔ ∀ e ∈ es, ¬ e.refused) ∧
      ∀ why, s.run.pc = .stopped why → why ∈ ClientRun.refusals := by
  have hstopped := stopped_iff hw hlasting hrun hclock
  refine ⟨⟨fun hrunning e he hrefused => ?_, fun hnone why hpc => ?_⟩, fun why hpc => ?_⟩
  · cases e with
    | serve request printedAt sentAt => cases hrefused
    | client e => exact hrunning _ ((hstopped _).mpr ⟨e, he, hrefused, rfl⟩)
  · obtain ⟨e, he, hrefused, -⟩ := (hstopped why).mp hpc
    exact hnone _ he hrefused
  · obtain ⟨e, -, -, rfl⟩ := (hstopped why).mp hpc
    exact ClientRun.refusal_mem_refusals e

/-- **The client runs as long as the system does not refuse it a call.**  In every run against the
server whose client's clock does not run backwards, with a lasting rule for the empty memory, the
client is stopped exactly when one of its calls of `::sendto`, `::poll` or `::recvmsg` fails, and
then by the exception for this call, which `main` handles; and the server can answer whatever was
sent. -/
theorem survives_iff (hw : t.whisker .init = .ok (some w)) (hlasting : w.Lasting) {es : List Event}
    {s : System} (hrun : exec (step n server) (start addr sock t track) es = some s)
    (hclock : (clientReadings es).Pairwise (· ≤ ·)) :
    (s.Running ↔ ∀ e ∈ es, ¬ e.refused) ∧
      (∀ why, s.run.pc = .stopped why ↔
        ∃ e : ClientRun.Event, .client e ∈ es ∧ e.refused ∧ why = e.refusal) ∧
      (∀ e : ClientRun.Event, e.refusal ∈ ClientRun.refusals ∧ ¬ e.refusal.escapesMain) ∧
      ∀ request ∈ s.run.sent, ∀ printedAt sentAt,
        ∃ s', step n server s (.serve request printedAt sentAt) = some s' :=
  ⟨(running_iff hw hlasting hrun hclock).1, stopped_iff hw hlasting hrun hclock,
    fun e => ⟨ClientRun.refusal_mem_refusals e, ClientRun.not_escapesMain_refusal e⟩,
    exists_serve (ClientRun.sent_start addr sock t track) hrun⟩

end Runs

/-- A packet that comes back, and a poll that fails afterwards. -/
theorem survives_iff_of_poll : letI := gcc48
    ∃ s : System, exec (step 2 ⟨⟨1, 9⟩⟩) (start ⟨1, 9⟩ ⟨⟨2, 8⟩⟩ .init true)
        (oneRoundTrip ++ [.client (.enter 11), .client (.send 14 14 true), .client (.leave 15),
          .client (.poll .error none [])]) = some s ∧
      s.run.pc = .stopped (.throw (.exception "poll")) := by
  let _ := gcc48
  have hexec : (exec (step 2 ⟨⟨1, 9⟩⟩) (start ⟨1, 9⟩ ⟨⟨2, 8⟩⟩ .init true)
      (oneRoundTrip ++ [.client (.enter 11), .client (.send 14 14 true), .client (.leave 15),
        .client (.poll .error none [])])).isSome := by
    decide +kernel
  obtain ⟨s, hrun⟩ := Option.isSome_iff_exists.mp hexec
  have hrule : WhiskerTree.init.whisker .init
      = .ok (some (Whisker.ofDomain WhiskerTree.rootDomain)) := by
    rfl
  have hrange : (Whisker.ofDomain WhiskerTree.rootDomain).InRange := by decide +kernel
  have hsurvives := survives_iff hrule hrange.lasting hrun (by decide +kernel)
  refine ⟨s, hrun, (hsurvives.2.1 _).mpr ⟨.poll .error none [], ?_, rfl, rfl⟩⟩
  exact List.mem_append_right _ (by simp)

end System

end SendReceive
