import Mathlib.Logic.Function.Basic
import SendReceive.Lib.Interleaving
import SendReceive.System

/-!
# Many clients

The server answers whoever sends to it.  Any number of clients, each with a table and a socket of
its own, run against one server; a datagram comes to the client whose address it bears.

The answer to a datagram goes to its source and says nothing of other datagrams, so each client runs
as if it were alone with the server: the runs of many clients are the interleavings of runs of one.

## Main definitions

* `Fleet`, `Fleet.Event`, `Fleet.step` — the states, the events, the steps.
* `Fleet.view`, `Fleet.seen` — what a client sees of them.

## Main results

* `Fleet.interleaving` — one step of the clients and the server.
* `Fleet.noninterference` — **clients with different addresses do not interfere**.
-/

namespace SendReceive

open Transition (exec Interleaving)

/-- The clients, and what the server sent. -/
structure Fleet (ι : Type) where
  clients : ι → ClientRun
  replies : List Datagram

namespace Fleet

/-- What happens to the clients and the server. -/
inductive Event (ι : Type) where
  /-- An event of one client. -/
  | client (i : ι) (e : ClientRun.Event)
  /-- A round of the server for a datagram of one client, with its clock readings. -/
  | serve (i : ι) (request : Datagram) (printedAt sentAt : UInt64)

variable {ι : Type} [DecidableEq ι]

/-- What the event is for one client and the server. -/
def Event.seen (i : ι) : Event ι → Option System.Event
  | .client j e => if j = i then some (.client e) else none
  | .serve j request printedAt sentAt =>
    if j = i then some (.serve request printedAt sentAt) else none

/-- One client with the answers to its address. -/
def view (sock : ι → Socket) (i : ι) (f : Fleet ι) : System :=
  ⟨f.clients i, f.replies.filter fun d => d.destination = (sock i).localAddr⟩

/-- The states in which all clients come to their loops. -/
def start (addr : Address) (sock : ι → Socket) (t : ι → WhiskerTree) (track : ι → Bool) : Fleet ι :=
  ⟨fun i => .start addr (sock i) (t i) (track i), []⟩

section Step

variable [Platform]

/-- One step, where `sock i` is the socket of the client `i` and `numTotalPackets i` what it is to
send. -/
def step (numTotalPackets : ι → UInt64) (server : Socket) (sock : ι → Socket) (f : Fleet ι) :
    Event ι → Option (Fleet ι)
  | .client i e =>
    if ∀ d ∈ e.received, d ∈ f.replies ∧ d.destination = (sock i).localAddr then
      ((f.clients i).step (numTotalPackets i) e).map fun r =>
        { f with clients := Function.update f.clients i r }
    else none
  | .serve i request printedAt sentAt =>
    if request ∈ (f.clients i).sent then
      match Server.loopBody server (some request) true [printedAt, sentAt] with
      | .error _ => none
      | .ok (reply, _) => some { f with replies := f.replies ++ [reply] }
    else none

/-- Each client has its socket, and what it sends bears the address of it. -/
def Addressed (sock : ι → Socket) (f : Fleet ι) : Prop :=
  ∀ i, (f.clients i).client.sock = sock i ∧
    ∀ d ∈ (f.clients i).sent, d.source = (sock i).localAddr

variable {numTotalPackets : ι → UInt64} {server : Socket} {sock : ι → Socket} {f f' : Fleet ι}
  {e : Event ι}

omit [DecidableEq ι] [Platform] in
theorem Addressed.start (addr : Address) (sock : ι → Socket) (t : ι → WhiskerTree)
    (track : ι → Bool) : Addressed sock (start addr sock t track) := by
  intro i
  obtain ⟨whiskers, theWindow, intersend, -, hc⟩ :=
    ClientRun.client_start addr (sock i) (t i) (track i)
  refine ⟨?_, fun d hd => ?_⟩
  · show (ClientRun.start addr (sock i) (t i) (track i)).client.sock = sock i
    rw [hc]
    rfl
  · have hd : d ∈ (ClientRun.start addr (sock i) (t i) (track i)).sent := hd
    rw [ClientRun.sent_start] at hd
    cases hd

/-- A step of one client keeps its socket, and what it sends bears the address of it. -/
theorem addressed_of_effect {n : UInt64} {s : Socket} {r r' : ClientRun} {e : ClientRun.Event}
    (heff : ClientRun.Effect n r e r') (hsock : r.client.sock = s)
    (hsent : ∀ d ∈ r.sent, d.source = s.localAddr) :
    r'.client.sock = s ∧ ∀ d ∈ r'.sent, d.source = s.localAddr := by
  cases heff with
  | send hpc hmay hdue =>
    refine ⟨hsock, fun d hd => ?_⟩
    rcases List.mem_append.mp hd with hold | hnew
    · exact hsent d hold
    · rw [List.mem_singleton.mp hnew, ← hsock]
      rfl
  | receive hpc hread hp hreceived => exact ⟨hreceived.sock.trans hsock, hsent⟩
  | _ => exact ⟨hsock, hsent⟩

/-- What a step of one client is. -/
theorem step_client_eq_some {i : ι} {e : ClientRun.Event}
    (h : step numTotalPackets server sock f (.client i e) = some f') :
    ∃ r, (∀ d ∈ e.received, d ∈ f.replies ∧ d.destination = (sock i).localAddr) ∧
      (f.clients i).step (numTotalPackets i) e = some r ∧
      f' = { f with clients := Function.update f.clients i r } := by
  simp only [step] at h
  split at h
  · rename_i hreceived
    obtain ⟨r, hr, rfl⟩ := Option.map_eq_some_iff.mp h
    exact ⟨r, hreceived, hr, rfl⟩
  · cases h

/-- What a round of the server is. -/
theorem step_serve_eq_some {i : ι} {request : Datagram} {printedAt sentAt : UInt64}
    (h : step numTotalPackets server sock f (.serve i request printedAt sentAt) = some f') :
    ∃ reply clock, request ∈ (f.clients i).sent ∧
      Server.loopBody server (some request) true [printedAt, sentAt] = .ok (reply, clock) ∧
      reply.destination = request.source ∧ f' = { f with replies := f.replies ++ [reply] } := by
  simp only [step] at h
  split at h
  · rename_i hmem
    cases hloop : Server.loopBody server (some request) true [printedAt, sentAt] with
    | error why => rw [hloop] at h; cases h
    | ok r =>
      obtain ⟨reply, clock⟩ := r
      rw [hloop] at h
      obtain rfl := Option.some.inj h
      obtain ⟨p, now, hp, rfl⟩ := Server.loopBody_eq_ok hloop
      exact ⟨_, clock, hmem, rfl, (Packet.str_of_ofString hp).2, rfl⟩
  · cases h

theorem Addressed.step (h : Addressed sock f)
    (hstep : step numTotalPackets server sock f e = some f') : Addressed sock f' := by
  cases e with
  | client i e =>
    obtain ⟨r, -, hr, rfl⟩ := step_client_eq_some hstep
    intro j
    by_cases hj : j = i
    · subst hj
      show (Function.update f.clients j r j).client.sock = _ ∧
        ∀ d ∈ (Function.update f.clients j r j).sent, _
      rw [Function.update_self]
      exact addressed_of_effect (ClientRun.step_effect hr) (h j).1 (h j).2
    · show (Function.update f.clients i r j).client.sock = _ ∧
        ∀ d ∈ (Function.update f.clients i r j).sent, _
      rw [Function.update_of_ne hj]
      exact h j
  | serve i request printedAt sentAt =>
    obtain ⟨reply, clock, -, -, -, rfl⟩ := step_serve_eq_some hstep
    exact h

/-! ### One step for one client -/

omit [Platform] in
theorem view_update_self (sock : ι → Socket) (i : ι) (f : Fleet ι) (r : ClientRun) :
    view sock i { f with clients := Function.update f.clients i r }
      = { view sock i f with run := r } := by
  simp [view]

omit [Platform] in
theorem view_update_of_ne (sock : ι → Socket) {i j : ι} (h : j ≠ i) (f : Fleet ι) (r : ClientRun) :
    view sock j { f with clients := Function.update f.clients i r } = view sock j f := by
  simp [view, h]

omit [DecidableEq ι] [Platform] in
theorem view_reply_self {i : ι} {reply : Datagram}
    (h : reply.destination = (sock i).localAddr) (f : Fleet ι) :
    view sock i { f with replies := f.replies ++ [reply] }
      = { view sock i f with replies := (view sock i f).replies ++ [reply] } := by
  simp [view, h]

omit [DecidableEq ι] [Platform] in
theorem view_reply_of_ne {i : ι} {reply : Datagram}
    (h : reply.destination ≠ (sock i).localAddr) (f : Fleet ι) :
    view sock i { f with replies := f.replies ++ [reply] } = view sock i f := by
  simp [view, h]

omit [DecidableEq ι] [Platform] in
theorem mem_view_replies {i : ι} {d : Datagram} :
    d ∈ (view sock i f).replies ↔ d ∈ f.replies ∧ d.destination = (sock i).localAddr := by
  simp [view]

/-- A step of one client is enabled when it is for the client alone with the server, and does the
same. -/
theorem step_client (i : ι) (e : ClientRun.Event) :
    step numTotalPackets server sock f (.client i e)
      = (System.step (numTotalPackets i) server (view sock i f) (.client e)).map fun s =>
        { f with clients := Function.update f.clients i s.run } := by
  simp only [step, System.step, mem_view_replies]
  split
  · show Option.map _ ((f.clients i).step _ e) = _
    rw [Option.map_map]
    rfl
  · rfl

/-- So is a round of the server for it. -/
theorem step_serve (i : ι) (request : Datagram) (printedAt sentAt : UInt64) :
    (∃ f', step numTotalPackets server sock f (.serve i request printedAt sentAt) = some f') ↔
      ∃ s, System.step (numTotalPackets i) server (view sock i f) (.serve request printedAt sentAt)
        = some s := by
  show _ ↔ ∃ s, (if request ∈ (f.clients i).sent then _ else none) = some s
  simp only [step]
  split
  · cases Server.loopBody server (some request) true [printedAt, sentAt] <;> simp
  · simp

/-- What a step shows of one client. -/
theorem part_of_step (hsock : Function.Injective fun i => (sock i).localAddr)
    (hf : Addressed sock f) (hstep : step numTotalPackets server sock f e = some f') (i : ι) :
    exec (System.step (numTotalPackets i) server) (view sock i f) (e.seen i).toList
      = some (view sock i f') := by
  cases e with
  | client j e =>
    rw [step_client] at hstep
    obtain ⟨s, hs, rfl⟩ := Option.map_eq_some_iff.mp hstep
    by_cases hj : j = i
    · subst hj
      have hseen : (Event.client j e).seen j = some (.client e) := if_pos rfl
      rw [hseen, Option.toList_some, Transition.exec_singleton, hs, view_update_self]
      -- the server did nothing
      cases System.step_effect hs with
      | client hreceived heff => rfl
    · have hseen : (Event.client j e).seen i = none := if_neg hj
      rw [hseen, view_update_of_ne sock (Ne.symm hj)]
      rfl
  | serve j request printedAt sentAt =>
    obtain ⟨reply, clock, hmem, hloop, hdestination, rfl⟩ := step_serve_eq_some hstep
    have hreply : reply.destination = (sock j).localAddr := by
      rw [hdestination]
      exact (hf j).2 request hmem
    by_cases hj : j = i
    · subst hj
      have hseen : (Event.serve j request printedAt sentAt).seen j
          = some (.serve request printedAt sentAt) := if_pos rfl
      rw [hseen, Option.toList_some, Transition.exec_singleton, view_reply_self hreply]
      show (if request ∈ (f.clients j).sent then _ else none) = _
      rw [if_pos hmem, hloop]
    · have hseen : (Event.serve j request printedAt sentAt).seen i = none := if_neg hj
      have hother : reply.destination ≠ (sock i).localAddr := by
        rw [hreply]
        exact fun h => hj (hsock h)
      rw [hseen, view_reply_of_ne hother]
      rfl

/-- **The clients and the server are made of pairs of one client and the server.** -/
theorem interleaving (hsock : Function.Injective fun i => (sock i).localAddr) :
    Interleaving (step numTotalPackets server sock)
      (fun i => System.step (numTotalPackets i) server) (view sock) Event.seen (Addressed sock) where
  good := Addressed.step
  part := part_of_step hsock
  enabled := by
    intro f e hf hparts
    cases e with
    | client i e =>
      obtain ⟨s, hs⟩ := hparts i
      have hseen : (Event.client i e).seen i = some (.client e) := if_pos rfl
      rw [hseen, Option.toList_some, Transition.exec_singleton] at hs
      rw [step_client, hs]
      exact ⟨_, rfl⟩
    | serve i request printedAt sentAt =>
      obtain ⟨s, hs⟩ := hparts i
      have hseen : (Event.serve i request printedAt sentAt).seen i
          = some (.serve request printedAt sentAt) := if_pos rfl
      rw [hseen, Option.toList_some, Transition.exec_singleton] at hs
      exact (step_serve i request printedAt sentAt).mpr ⟨s, hs⟩

/-- **Clients with different addresses do not interfere.**  In a run of many clients against one
server, what each client sees is a run of it alone with the server, from the start to the same
state, with the answers to its address; and whenever the events that each client sees are such a
run, they are a run of all of them, in whatever order the events of different clients come. -/
theorem noninterference (hsock : Function.Injective fun i => (sock i).localAddr) {addr : Address}
    {t : ι → WhiskerTree} {track : ι → Bool} (es : List (Event ι)) :
    (∀ f, exec (step numTotalPackets server sock) (start addr sock t track) es = some f →
      ∀ i, exec (System.step (numTotalPackets i) server)
        (System.start addr (sock i) (t i) (track i)) (es.filterMap (Event.seen i))
          = some (f.view sock i)) ∧
    ((∀ i, ∃ s, exec (System.step (numTotalPackets i) server)
        (System.start addr (sock i) (t i) (track i)) (es.filterMap (Event.seen i)) = some s) →
      ∃ f, exec (step numTotalPackets server sock) (start addr sock t track) es = some f) := by
  have hstart := Addressed.start addr sock t track
  have hinterleaving : Interleaving (step numTotalPackets server sock)
      (fun i => System.step (numTotalPackets i) server) (view sock) Event.seen (Addressed sock) :=
    interleaving hsock
  exact ⟨fun f hrun => hinterleaving.exec_part hstart hrun, fun hparts =>
    hinterleaving.exists_exec hstart hparts⟩

end Step

/-- Two clients whose packets cross. -/
def crossing [Platform] : List (Event Bool) :=
  let p : Packet := (Packet.make ⟨1, 9⟩ 0 0 0 Client.helloPayload).setSendTimestamp 5
  [.client false (.enter 1), .client true (.enter 2), .client true (.send 5 5 true),
    .client false (.send 5 5 true), .serve false ⟨⟨2, 8⟩, ⟨1, 9⟩, p.str⟩ 6 7,
    .client true (.leave 8), .serve true ⟨⟨3, 8⟩, ⟨1, 9⟩, p.str⟩ 9 10,
    .client true (.poll (.ready [pollIn])
      (some (Server.answer ⟨⟨1, 9⟩⟩ { p with addr_ := ⟨3, 8⟩ } 10)) [11, 12])]

/-- Each of two clients whose packets cross runs as if it were alone. -/
theorem noninterference_of_two : letI := gcc48
    ∃ f, exec (step (fun _ => 1) ⟨⟨1, 9⟩⟩ fun i => ⟨⟨if i then 3 else 2, 8⟩⟩)
        (start ⟨1, 9⟩ (fun i => ⟨⟨if i then 3 else 2, 8⟩⟩) (fun _ => .init) fun _ => true) crossing
      = some f ∧
      ∀ i, exec (System.step 1 ⟨⟨1, 9⟩⟩) (System.start ⟨1, 9⟩ ⟨⟨if i then 3 else 2, 8⟩⟩ .init true)
        (crossing.filterMap (Event.seen i))
          = some (f.view (fun i => ⟨⟨if i then 3 else 2, 8⟩⟩) i) := by
  let _ := gcc48
  have hexec : (exec (step (fun _ => 1) ⟨⟨1, 9⟩⟩ fun i => ⟨⟨if i then 3 else 2, 8⟩⟩)
      (start ⟨1, 9⟩ (fun i => ⟨⟨if i then 3 else 2, 8⟩⟩) (fun _ => .init) fun _ => true)
        crossing).isSome := by
    decide +kernel
  obtain ⟨f, hrun⟩ := Option.isSome_iff_exists.mp hexec
  have hsock : Function.Injective fun i : Bool =>
      Socket.localAddr ⟨⟨if i then 3 else 2, 8⟩⟩ := by
    decide
  exact ⟨f, hrun, (noninterference hsock crossing).1 f hrun⟩

end Fleet

end SendReceive
