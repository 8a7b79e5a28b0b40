import SendReceive.Completion
import SendReceive.NormalForm
import SendReceive.Survival
import SendReceive.Timeouts

/-!
# The two programs

What the `main` functions make of their arguments, and how the processes end.  Both catch what is
derived from the class `Exception` and return `EXIT_FAILURE`; an object of another class ends the
process, as a failed assertion does.

The client loads its table from a file, looks up the address of the server, and sends a thousand
packets.  The server never returns from its loop.

## Main definitions

* `Host` — what the system answers before the loops.
* `ProcessEnd`, `Stop.processEnd` — how a process ends.
* `clientMain`, `serverMain` — the two programs up to their loops.
* `Server.serve` — the loop of the server when the system can refuse it calls.

## Main results

* `clientMain_error` — how the client ends before its loops.
* `client_process` — **how the client ends**.
* `server_process` — **how the server ends**.
-/

namespace SendReceive

open Transition (exec)

/-- What the system answers to the calls before the loops. -/
structure Host where
  /-- `::open`, and what can be read from the descriptor. -/
  files : String → Option ByteString
  /-- `ParseFromFileDescriptor`. -/
  parse : ByteString → Option RemyBuffers.WhiskerTree
  /-- `::getaddrinfo` for a host and a service. -/
  getaddrinfo : String → String → Option Address
  /-- The descriptor that `::socket` gives. -/
  socket : Option ℕ
  /-- The address that the system knows a socket by before it is bound. -/
  localAddr : Address
  /-- `::bind` takes the address. -/
  bind : Address → Bool
  /-- The address that the socket was bound to. -/
  getsockname : Option Address

/-- How a process ends. -/
inductive ProcessEnd where
  /-- With an exit status. -/
  | exits (status : ℕ)
  /-- By a signal: an exception was not caught, an assertion failed, or an operation was
  undefined. -/
  | dies (why : Stop)
  deriving DecidableEq, Repr

/-- `EXIT_FAILURE`. -/
def exitFailure : ℕ := 1

/-- What the `catch` clause of both `main` functions makes of the end of a computation. -/
def Stop.processEnd : Stop → ProcessEnd
  | .throw (.exception _) => .exits exitFailure
  | .exit status => .exits status
  | why => .dies why

/-- `SystemCall`, and the checks that are like it. -/
def systemCall {α : Type} (attempt : String) : Option α → Except Stop α
  | some x => .ok x
  | none => .error (.throw (.exception attempt))

/-- The constructor of `Socket`.  That of its descriptor refuses the standard streams. -/
def Host.makeSocket (h : Host) : Except Stop Socket := do
  let fd ← systemCall "socket" h.socket
  if fd ≤ 2 then .error (.throw (.exception "FileDescriptor")) else return ⟨h.localAddr⟩

/-- `Socket::bind`. -/
def Host.bindSocket (h : Host) (sock : Socket) (addr : Address) : Except Stop Socket := do
  let sock := { sock with localAddr := addr }
  if h.bind sock.localAddr then
    let localAddr ← systemCall "getsockname" h.getsockname
    return { sock with localAddr := localAddr }
  else .error (.throw (.exception "bind"))

/-- `main` of the client, up to the loops of `Client::run`. -/
def clientMain (h : Host) : List String → Except Stop ClientRun
  | [] => .error (.throw (.exception "client"))
  | [program, destAddress, destService, filename] => do
    let bytes ← systemCall program (h.files filename)
    let dna ← systemCall program (h.parse bytes)
    let whiskers ← WhiskerTree.ofDNA dna
    let addr ← systemCall "getaddrinfo" (h.getaddrinfo destAddress destService)
    let sock ← h.makeSocket
    return .start addr sock whiskers true
  | program :: _ => .error (.throw (.exception program))

/-- `main` of the server, up to the loop of `Server::run`. -/
def serverMain (h : Host) : List String → Except Stop Socket
  | [] => .error (.throw (.exception "server"))
  | [_, localService] => do
    let addr ← systemCall "getaddrinfo" (h.getaddrinfo "0.0.0.0" localService)
    let sock ← h.makeSocket
    h.bindSocket sock addr
  | program :: _ => .error (.throw (.exception program))

/-- The number of packets that `main` asks for. -/
def numTotalPackets : UInt64 := 1000

/-- How the process of a client has ended, if it has. -/
def ClientRun.processEnd (r : ClientRun) : Option ProcessEnd :=
  match r.pc with
  | .returned exitStatus => some (.exits exitStatus.toNat)
  | .stopped why => some why.processEnd
  | _ => none

/-! ### Before the loops -/

/-- The message that the client loads is not that of a tree. -/
def Host.Malformed (h : Host) (argv : List String) : Prop :=
  ∃ filename ∈ argv[3]?, ∃ bytes ∈ h.files filename, ∃ dna ∈ h.parse bytes,
    ¬ dna.Accepted

theorem systemCall_eq_ok {α : Type} {attempt : String} {o : Option α} {x : α} :
    systemCall attempt o = .ok x ↔ o = some x := by
  cases o <;> simp [systemCall]

/-- A call that fails is handled. -/
theorem processEnd_of_systemCall {α : Type} {attempt : String} {o : Option α} {why : Stop}
    (h : systemCall attempt o = .error why) : why.processEnd = .exits exitFailure := by
  cases o with
  | some x => cases h
  | none =>
    obtain rfl := Except.error.inj h
    rfl

theorem processEnd_of_makeSocket {h : Host} {why : Stop} (hwhy : h.makeSocket = .error why) :
    why.processEnd = .exits exitFailure := by
  rcases bind_eq_error.mp hwhy with hcall | ⟨fd, -, hcheck⟩
  · exact processEnd_of_systemCall hcall
  · split at hcheck
    · obtain rfl := Except.error.inj hcheck
      rfl
    · cases hcheck

/-- A table that the client loads from its file. -/
def Host.Loads (h : Host) (argv : List String) (t : WhiskerTree) : Prop :=
  ∃ filename ∈ argv[3]?, ∃ bytes ∈ h.files filename, ∃ dna ∈ h.parse bytes,
    WhiskerTree.ofDNA dna = .ok t

/-- **How the client ends before its loops**: with `EXIT_FAILURE`, or by an assertion when the
message in its file is not that of a tree. -/
theorem clientMain_error {h : Host} {argv : List String} {why : Stop}
    (hmain : clientMain h argv = .error why) :
    why.processEnd = .exits exitFailure ∨ why = .assertFailed ∧ h.Malformed argv := by
  match argv with
  | [] | [_] | [_, _] | [_, _, _] | _ :: _ :: _ :: _ :: _ :: _ =>
    obtain rfl := Except.error.inj hmain
    exact Or.inl rfl
  | [program, destAddress, destService, filename] =>
    rcases bind_eq_error.mp hmain with hfile | ⟨bytes, hbytes, hmain⟩
    · exact Or.inl (processEnd_of_systemCall hfile)
    rcases bind_eq_error.mp hmain with hparse | ⟨dna, hdna, hmain⟩
    · exact Or.inl (processEnd_of_systemCall hparse)
    rcases bind_eq_error.mp hmain with htree | ⟨t, -, hmain⟩
    · refine Or.inr ⟨WhiskerTree.assertFailed_of_ofDNA htree, filename, rfl, bytes,
        systemCall_eq_ok.mp hbytes, dna, systemCall_eq_ok.mp hdna, ?_⟩
      rw [← WhiskerTree.ofDNA_eq_error_iff, htree, WhiskerTree.assertFailed_of_ofDNA htree]
    rcases bind_eq_error.mp hmain with haddr | ⟨addr, -, hmain⟩
    · exact Or.inl (processEnd_of_systemCall haddr)
    rcases bind_eq_error.mp hmain with hsock | ⟨sock, -, hmain⟩
    · exact Or.inl (processEnd_of_makeSocket hsock)
    cases hmain

theorem processEnd_of_bindSocket {h : Host} {sock : Socket} {addr : Address} {why : Stop}
    (hwhy : h.bindSocket sock addr = .error why) : why.processEnd = .exits exitFailure := by
  unfold Host.bindSocket at hwhy
  dsimp only at hwhy
  split at hwhy
  · rcases bind_eq_error.mp hwhy with hcall | ⟨localAddr, -, hwhy⟩
    · exact processEnd_of_systemCall hcall
    · cases hwhy
  · obtain rfl := Except.error.inj hwhy
    rfl

/-- The client comes to its loops with the table that it loaded. -/
theorem clientMain_ok {h : Host} {argv : List String} {r : ClientRun}
    (hmain : clientMain h argv = .ok r) :
    ∃ t addr sock, h.Loads argv t ∧ r = .start addr sock t true := by
  match argv with
  | [] | [_] | [_, _] | [_, _, _] | _ :: _ :: _ :: _ :: _ :: _ => cases hmain
  | [program, destAddress, destService, filename] =>
    obtain ⟨bytes, hbytes, hmain⟩ := bind_eq_ok.mp hmain
    obtain ⟨dna, hdna, hmain⟩ := bind_eq_ok.mp hmain
    obtain ⟨t, ht, hmain⟩ := bind_eq_ok.mp hmain
    obtain ⟨addr, -, hmain⟩ := bind_eq_ok.mp hmain
    obtain ⟨sock, -, hmain⟩ := bind_eq_ok.mp hmain
    exact ⟨t, addr, sock, ⟨filename, rfl, bytes, systemCall_eq_ok.mp hbytes, dna,
      systemCall_eq_ok.mp hdna, ht⟩, (Except.ok.inj hmain).symm⟩

/-! ### The client -/

/-- The loops of the client are left: at their end, or for an error on the descriptor. -/
def ClientRun.Event.leaves : ClientRun.Event → Bool
  | .finish => true
  | e => e.reportsError

section Client

variable [Platform] {n : UInt64} {r r' : ClientRun}

/-- A step comes to the end of `Client::run` when it leaves the loops. -/
theorem ClientRun.returned_iff_of_step {e : ClientRun.Event} (heff : ClientRun.Effect n r e r') :
    (r'.pc = .returned exitSuccess ↔ e.leaves) ∧
      ∀ v, r'.pc = .returned v → v = exitSuccess := by
  cases heff with
  | finish hpc hnext => exact ⟨iff_of_true rfl rfl, fun v hv => (Pc.returned.inj hv).symm⟩
  | pollError hpc herror => exact ⟨iff_of_true rfl herror, fun v hv => (Pc.returned.inj hv).symm⟩
  | idle hpc herror hread =>
    exact ⟨iff_of_false Pc.noConfusion herror, fun v hv => Pc.noConfusion hv⟩
  | receive hpc hread hp hreceived =>
    exact ⟨iff_of_false Pc.noConfusion (Poller.readable_not_error hread),
      fun v hv => Pc.noConfusion hv⟩
  | dies hpc hread hfails =>
    exact ⟨iff_of_false Pc.noConfusion (Poller.readable_not_error hread),
      fun v hv => Pc.noConfusion hv⟩
  | wait hpc | send hpc =>
    refine ⟨iff_of_false (fun h => ?_) Bool.false_ne_true, fun v hv => ?_⟩
    · cases hpc.symm.trans h
    · cases hpc.symm.trans hv
  | _ => exact ⟨iff_of_false Pc.noConfusion Bool.false_ne_true, fun v hv => Pc.noConfusion hv⟩

/-- In a run the client has returned when its loops were left. -/
theorem ClientRun.returned_iff {addr : Address} {sock : Socket} {t : WhiskerTree} {track : Bool}
    {es : List ClientRun.Event}
    (hrun : exec (ClientRun.step n) (ClientRun.start addr sock t track) es = some r) :
    (r.pc = .returned exitSuccess ↔ ∃ e ∈ es, e.leaves) ∧
      ∀ v, r.pc = .returned v → v = exitSuccess := by
  refine Transition.exec_induct (P := fun es r =>
    (r.pc = .returned exitSuccess ↔ ∃ e ∈ es, e.leaves) ∧
      ∀ v, r.pc = .returned v → v = exitSuccess) ?_ ?_ es r hrun
  · rcases ClientRun.start_cases addr sock t track with ⟨why, hstart⟩ | ⟨c, -, hstart⟩ <;>
      rw [hstart] <;> simp
  · intro es s e s' _ ih hstep
    have heff := ClientRun.step_effect hstep
    obtain ⟨hiff, hstatus⟩ := ClientRun.returned_iff_of_step heff
    refine ⟨hiff.trans ?_, hstatus⟩
    -- the loops were not left before the step
    have hbefore : ¬ ∃ e ∈ es, e.leaves := fun h => heff.not_returned _ (ih.1.mpr h)
    simp only [List.mem_append, List.mem_singleton, or_and_right, exists_or, exists_eq_left]
    exact (or_iff_right hbefore).symm

/-- How the process ends from its loops on, with a lasting rule for the empty memory. -/
theorem System.processEnd_spec {t : WhiskerTree} {w : Whisker}
    (hw : t.whisker .init = .ok (some w)) (hlasting : w.Lasting) {server : Socket} {addr : Address}
    {sock : Socket} {track : Bool} {es : List System.Event} {s : System}
    (hrun : exec (System.step n server) (System.start addr sock t track) es = some s)
    (hclock : (System.clientReadings es).Pairwise (· ≤ ·)) :
    (s.run.processEnd = some (.exits exitFailure) ↔ ∃ e ∈ es, e.refused) ∧
    (s.run.processEnd = some (.exits 0) ↔ ∃ e ∈ System.clientEvents es, e.leaves) ∧
    (s.run.processEnd = some (.exits 0) →
      s.run.sent.length = n.toNat ∨ ∃ e ∈ System.clientEvents es, e.reportsError) ∧
    ∀ how ∈ s.run.processEnd, how = .exits exitFailure ∨ how = .exits 0 := by
  obtain ⟨hrunning, hreasons⟩ := System.running_iff hw hlasting hrun hclock
  have hclient := System.exec_clientEvents hrun
  obtain ⟨hreturned, hstatus⟩ := ClientRun.returned_iff hclient
  have hended := ClientRun.Ended.exec hclient
  -- the exceptions for refused calls are handled
  have hfails : ∀ why, s.run.pc = .stopped why → why.processEnd = .exits exitFailure := by
    intro why hpc
    have hwhy := hreasons why hpc
    simp only [ClientRun.refusals, List.mem_cons, List.not_mem_nil, or_false] at hwhy
    rcases hwhy with rfl | rfl | rfl <;> rfl
  have hrefused : (∃ e ∈ es, e.refused) ↔ ∃ why, s.run.pc = .stopped why := by
    rw [← not_iff_not]
    push Not
    exact hrunning.symm
  rw [hrefused, ← hreturned]
  unfold ClientRun.processEnd
  cases hpc : s.run.pc with
  | outer | inner | polling => simp
  | returned v =>
    obtain rfl := hstatus v hpc
    refine ⟨by simp [exitFailure, exitSuccess], by simp [exitSuccess], fun _ => ?_, ?_⟩
    · obtain ⟨-, hall | herror⟩ := hended.status _ hpc
      · exact Or.inl (by rw [hended.inv.length_sent, hall])
      · exact Or.inr herror
    · rintro how hhow
      exact Or.inr (Option.some.inj hhow).symm
  | stopped why =>
    dsimp only
    rw [hfails why hpc]
    refine ⟨by simp, by simp [exitFailure], by simp [exitFailure], ?_⟩
    rintro how hhow
    exact Or.inl (Option.some.inj hhow).symm

variable {h : Host} {argv : List String} {server : Socket}

/-- **How the client ends.**  When the table that it loads has a lasting rule for the empty memory,
and its clock does not run backwards, in every run against the server the process has ended with
`EXIT_FAILURE` if and only if a call of the system was refused, and with `EXIT_SUCCESS` if and only
if the loops were left; then all thousand packets were sent, or an error was reported on the
descriptor.  It ends in no other way. -/
theorem client_process (hmain : clientMain h argv = .ok r)
    (hrule : ∀ t, h.Loads argv t → ∃ w, t.whisker .init = .ok (some w) ∧ w.Lasting)
    {es : List System.Event} {s : System}
    (hrun : exec (System.step numTotalPackets server) ⟨r, []⟩ es = some s)
    (hclock : (System.clientReadings es).Pairwise (· ≤ ·)) :
    (s.run.processEnd = some (.exits exitFailure) ↔ ∃ e ∈ es, e.refused) ∧
    (s.run.processEnd = some (.exits 0) ↔ ∃ e ∈ System.clientEvents es, e.leaves) ∧
    (s.run.processEnd = some (.exits 0) →
      s.run.sent.length = 1000 ∨ ∃ e ∈ System.clientEvents es, e.reportsError) ∧
    ∀ how ∈ s.run.processEnd, how = .exits exitFailure ∨ how = .exits 0 := by
  obtain ⟨t, addr, sock, hloads, rfl⟩ := clientMain_ok hmain
  obtain ⟨w, hw, hlasting⟩ := hrule t hloads
  exact System.processEnd_spec hw hlasting hrun hclock

end Client

/-- A host on which the client finds a table with an empty rule. -/
def emptyRuleHost : Host where
  files name := if name = "rule" then some [0x1a, 0x00] else none
  parse bytes := if bytes = [0x1a, 0x00] then some (.mk none [] (some {})) else none
  getaddrinfo _ _ := some ⟨1, 9⟩
  socket := some 4
  localAddr := ⟨2, 8⟩
  bind _ := true
  getsockname := some ⟨1, 9⟩

/-- The window of an empty rule stays at zero. -/
theorem lasting_empty : (Whisker.ofDNA {}).Lasting := by
  refine ⟨fun k => ⟨0, ?_⟩, ⟨0, by decide +kernel⟩⟩
  induction k with
  | zero => rfl
  | succ k ih =>
    rw [Whisker.windows, ih]
    decide +kernel

/-- With an empty rule nothing is sent; `::poll` fails. -/
theorem client_process_of_poll : letI := gcc48
    ∃ (r : ClientRun) (s : System),
      clientMain emptyRuleHost ["client", "server", "9", "rule"] = .ok r ∧
      exec (System.step numTotalPackets ⟨⟨1, 9⟩⟩) ⟨r, []⟩
        [.client (.enter 1), .client (.leave 2), .client (.poll .error none [])] = some s ∧
      s.run.processEnd = some (.exits exitFailure) := by
  let _ := gcc48
  let t : WhiskerTree := .leaf (.ofDNA {}) (.ofDNA {})
  have hmain : clientMain emptyRuleHost ["client", "server", "9", "rule"]
      = .ok (.start ⟨1, 9⟩ ⟨⟨2, 8⟩⟩ t true) := rfl
  have hrule : ∀ t, emptyRuleHost.Loads ["client", "server", "9", "rule"] t →
      ∃ w, t.whisker .init = .ok (some w) ∧ w.Lasting := by
    rintro t' ⟨filename, hname, bytes, hbytes, dna, hdna, ht⟩
    obtain rfl := Option.some.inj hname
    obtain rfl := Option.some.inj hbytes
    obtain rfl := Option.some.inj hdna
    obtain rfl := Except.ok.inj ht
    exact ⟨_, rfl, lasting_empty⟩
  have hexec : (exec (System.step numTotalPackets ⟨⟨1, 9⟩⟩) ⟨.start ⟨1, 9⟩ ⟨⟨2, 8⟩⟩ t true, []⟩
      [.client (.enter 1), .client (.leave 2), .client (.poll .error none [])]).isSome := by
    decide +kernel
  obtain ⟨s, hrun⟩ := Option.isSome_iff_exists.mp hexec
  refine ⟨_, s, hmain, hrun, (client_process hmain hrule hrun (by decide +kernel)).1.mpr ?_⟩
  exact ⟨.client (.poll .error none []), by simp, rfl⟩

/-! ### The server -/

namespace Server

section Serve

variable [Platform]

/-- What the system contributes to a round of the server: what `::recvmsg` delivers unless it fails,
whether `::sendto` takes the answer, and the readings of the clock. -/
structure Turn where
  incoming : Option Datagram
  accepted : Bool
  printedAt : UInt64
  sentAt : UInt64
  deriving DecidableEq, Repr

/-- `Server::run`: the datagrams that it sends, and how it ended, or `none` when it waits for
the next one. -/
def serve (sock : Socket) : List Turn → List Datagram × Option Stop
  | [] => ([], none)
  | u :: us =>
    match loopBody sock u.incoming u.accepted [u.printedAt, u.sentAt] with
    | .error why => ([], some why)
    | .ok (answer, _) => (answer :: (serve sock us).1, (serve sock us).2)

/-- A datagram of a length that is answered, by a system that takes the answer. -/
def Turn.answered (u : Turn) : Bool :=
  u.accepted && u.incoming.any fun d =>
    Packet.headerLength ≤ d.bytes.length && d.bytes.length ≤ receiveMtu

/-- A datagram with less than a header. -/
def Turn.short (u : Turn) : Bool :=
  u.incoming.any fun d => d.bytes.length < Packet.headerLength

/-- What a turn that is answered sends. -/
def Turn.answer (sock : Socket) (u : Turn) : Option Datagram :=
  u.incoming.bind fun d => d.packet.toOption.map fun p => Server.answer sock p u.sentAt

/-- What is thrown for a datagram with less than a header. -/
def sizeMismatch : Stop := .throw (.string "Size mismatch in Integer64 constructor.")

theorem loopBody_of_answered (sock : Socket) {u : Turn} (hu : u.answered) :
    ∃ answer, u.answer sock = some answer ∧
      loopBody sock u.incoming u.accepted [u.printedAt, u.sentAt] = .ok (answer, []) := by
  obtain ⟨incoming, accepted, printedAt, sentAt⟩ := u
  cases incoming with
  | none => simp [Turn.answered] at hu
  | some d =>
    obtain ⟨rfl, hwhole, hmtu⟩ : accepted = true ∧ Packet.headerLength ≤ d.bytes.length ∧
        d.bytes.length ≤ receiveMtu := by
      simpa [Turn.answered] using hu
    obtain ⟨p, hp⟩ := Packet.ofString_eq_ok_iff.mpr hwhole
    have hpacket : d.packet = .ok p := hp
    have hrecv : Socket.recv (some d) = .ok p := (Socket.recv_of_le hmtu).trans hpacket
    refine ⟨Server.answer sock p sentAt, ?_, loopBody_of_recv hrecv printedAt sentAt []⟩
    simp [Turn.answer, hpacket, Except.toOption]

/-- What cannot be answered ends the loop. -/
theorem loopBody_of_not_answered (sock : Socket) {u : Turn} (hu : ¬ u.answered) :
    ∃ why, loopBody sock u.incoming u.accepted [u.printedAt, u.sentAt] = .error why ∧
      why.processEnd = if u.short then .dies sizeMismatch else .exits exitFailure := by
  obtain ⟨incoming, accepted, printedAt, sentAt⟩ := u
  cases incoming with
  | none => exact ⟨_, rfl, rfl⟩
  | some d =>
    by_cases hmtu : d.bytes.length ≤ receiveMtu
    · have hrecv : Socket.recv (some d) = d.packet := Socket.recv_of_le hmtu
      by_cases hwhole : Packet.headerLength ≤ d.bytes.length
      · -- the datagram is received, and its answer is refused
        obtain ⟨p, hp⟩ := Packet.ofString_eq_ok_iff.mpr hwhole
        have hpacket : d.packet = .ok p := hp
        obtain rfl : accepted = false := by simpa [Turn.answered, hwhole, hmtu] using hu
        have hshort : Turn.short ⟨some d, false, printedAt, sentAt⟩ = false := by
          simpa [Turn.short] using hwhole
        rw [loopBody, hrecv, hpacket, hshort]
        exact ⟨_, rfl, rfl⟩
      · have hthrow := Packet.ofString_of_short d.source (not_le.mp hwhole)
        have hpacket : d.packet = .error sizeMismatch := hthrow
        have hshort : Turn.short ⟨some d, accepted, printedAt, sentAt⟩ = true := by
          simpa [Turn.short] using hwhole
        rw [loopBody, hrecv, hpacket, hshort]
        exact ⟨_, rfl, rfl⟩
    · -- longer than what is received, and so longer than a header
      have hshort : Turn.short ⟨some d, accepted, printedAt, sentAt⟩ = false := by
        have hlong : Packet.headerLength ≤ receiveMtu := by decide
        simpa [Turn.short] using hlong.trans (not_le.mp hmtu).le
      rw [loopBody, Socket.recv, if_pos (not_le.mp hmtu), hshort]
      exact ⟨_, rfl, rfl⟩

omit [Platform] in
/-- Before its loop the server ends with `EXIT_FAILURE` only. -/
theorem serverMain_error {h : Host} {argv : List String} {why : Stop}
    (hmain : serverMain h argv = .error why) : why.processEnd = .exits exitFailure := by
  match argv with
  | [] | [_] | _ :: _ :: _ :: _ =>
    obtain rfl := Except.error.inj hmain
    rfl
  | [program, localService] =>
    rcases bind_eq_error.mp hmain with haddr | ⟨addr, -, hmain⟩
    · exact processEnd_of_systemCall haddr
    rcases bind_eq_error.mp hmain with hsock | ⟨sock, -, hmain⟩
    · exact processEnd_of_makeSocket hsock
    · exact processEnd_of_bindSocket hmain

/-- What the loop answers, and how it ends. -/
theorem serve_eq (sock : Socket) (us : List Turn) :
    (serve sock us).1 = (us.takeWhile Turn.answered).filterMap (Turn.answer sock) ∧
    (serve sock us).2.map Stop.processEnd = (us.find? fun u => !u.answered).map fun u =>
      if u.short then .dies sizeMismatch else .exits exitFailure := by
  induction us with
  | nil => exact ⟨rfl, rfl⟩
  | cons u us ih =>
    by_cases hu : u.answered
    · obtain ⟨answer, hanswer, hloop⟩ := loopBody_of_answered sock hu
      rw [serve, hloop, List.takeWhile_cons_of_pos hu, List.filterMap_cons_some hanswer,
        List.find?_cons_of_neg (by simp [hu])]
      exact ⟨congrArg _ ih.1, ih.2⟩
    · obtain ⟨why, hloop, hwhy⟩ := loopBody_of_not_answered sock hu
      rw [serve, hloop, List.takeWhile_cons_of_neg hu, List.find?_cons_of_pos (by simp [hu])]
      exact ⟨rfl, congrArg some hwhy⟩

/-- An answer goes to where the datagram came from, and is hardly longer. -/
theorem exists_of_answer (sock : Socket) {u : Turn} (hu : u.answered) :
    ∃ d answer, u.incoming = some d ∧ u.answer sock = some answer ∧
      answer.destination = d.source ∧ 48 * answer.bytes.length ≤ 51 * d.bytes.length := by
  obtain ⟨incoming, accepted, printedAt, sentAt⟩ := u
  cases incoming with
  | none => simp [Turn.answered] at hu
  | some d =>
    obtain ⟨-, hwhole, -⟩ : accepted = true ∧ Packet.headerLength ≤ d.bytes.length ∧
        d.bytes.length ≤ receiveMtu := by
      simpa [Turn.answered] using hu
    obtain ⟨p, hp⟩ := Packet.ofString_eq_ok_iff.mpr hwhole
    have hpacket : d.packet = .ok p := hp
    have hlength : (Server.answer sock p sentAt).bytes.length = 51 := Packet.length_str _
    refine ⟨d, Server.answer sock p sentAt, rfl, ?_, (Packet.str_of_ofString hp).2, ?_⟩
    · simp [Turn.answer, hpacket, Except.toOption]
    · rw [hlength]
      exact Nat.mul_le_mul_left 51 hwhole

/-- **The server does not amplify**: each answer goes to the source of the datagram that it answers,
and all answers together are hardly longer than what was answered. -/
theorem answers_reflect (sock : Socket) {us : List Turn} (hus : ∀ u ∈ us, u.answered) :
    (us.filterMap (Turn.answer sock)).map Datagram.destination
      = (us.filterMap Turn.incoming).map Datagram.source ∧
    48 * ((us.filterMap (Turn.answer sock)).map fun d => d.bytes.length).sum
      ≤ 51 * ((us.filterMap Turn.incoming).map fun d => d.bytes.length).sum := by
  induction us with
  | nil => exact ⟨rfl, Nat.le_refl _⟩
  | cons u us ih =>
    obtain ⟨hu, hus⟩ := List.forall_mem_cons.mp hus
    obtain ⟨hdestinations, hlengths⟩ := ih hus
    obtain ⟨d, answer, hd, hanswer, hdestination, hlength⟩ := exists_of_answer sock hu
    rw [List.filterMap_cons_some hanswer, List.filterMap_cons_some hd]
    simp only [List.map_cons, List.sum_cons, hdestination, hdestinations, true_and]
    omega

/-- **How the server ends.**  Before its loop the process ends with `EXIT_FAILURE` only.  The loop
answers what comes up to the first turn that cannot be answered, and goes on when there is none.  A
datagram with less than a header then ends the process by an exception that is not caught; a
datagram that is too long and a call that the system refuses end it with `EXIT_FAILURE`.  Each
answer goes to where the datagram came from, and all together are hardly longer than what was
answered. -/
theorem server_process (h : Host) (argv : List String) :
    (∀ why, serverMain h argv = .error why → why.processEnd = .exits exitFailure) ∧
    ∀ sock, serverMain h argv = .ok sock → ∀ us : List Turn,
      (serve sock us).1 = (us.takeWhile Turn.answered).filterMap (Turn.answer sock) ∧
      ((serve sock us).2.map Stop.processEnd = (us.find? fun u => !u.answered).map fun u =>
        if u.short then .dies sizeMismatch else .exits exitFailure) ∧
      (serve sock us).1.map Datagram.destination
        = ((us.takeWhile Turn.answered).filterMap Turn.incoming).map Datagram.source ∧
      48 * ((serve sock us).1.map fun d => d.bytes.length).sum ≤
        51 * (((us.takeWhile Turn.answered).filterMap Turn.incoming).map fun d =>
          d.bytes.length).sum := by
  refine ⟨fun _ => serverMain_error, fun sock _ us => ?_⟩
  obtain ⟨hanswers, hend⟩ := serve_eq sock us
  rw [hanswers]
  exact ⟨rfl, hend, answers_reflect sock (List.all_eq_true.mp List.all_takeWhile)⟩

end Serve

/-- A datagram of two bytes after one that is answered. -/
theorem server_process_of_short : letI := gcc48
    ∃ sock, serverMain emptyRuleHost ["server", "9"] = .ok sock ∧
      (serve sock [⟨some ⟨⟨2, 8⟩, ⟨1, 9⟩, List.replicate 48 0⟩, true, 1, 2⟩,
        ⟨some ⟨⟨2, 8⟩, ⟨1, 9⟩, [0, 0]⟩, true, 3, 4⟩]).2.map Stop.processEnd
          = some (.dies sizeMismatch) := by
  let _ := gcc48
  have hmain : serverMain emptyRuleHost ["server", "9"] = .ok ⟨⟨1, 9⟩⟩ := rfl
  refine ⟨_, hmain, ?_⟩
  rw [((server_process emptyRuleHost ["server", "9"]).2 _ hmain _).2.1]
  decide +kernel

end Server

end SendReceive
