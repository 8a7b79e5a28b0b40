import SendReceive.Poller
import SendReceive.Socket
import SendReceive.WhiskerTree

/-!
# The client

The client sends packets as fast as the window and the intersend time allow, and adapts both to
the acknowledgements it receives: each one updates the memory, and the rule the table has for the
memory gives the next window.

Here are the state of the client and what it does on a reception; the loops of
`Client::run` are in `SendReceive.ClientRun`.

## Main definitions

* `Client` — the members of the class, and the local variables of `Client::run`.
* `Client.receive` — the callback of the poller's only action.

## Main results

* `Client.receive_parts`, `Client.receive_eq_ok` — **what a reception does** that comes to its end.
-/

namespace SendReceive

/-! ### Utility -/

/-- `Utility`. -/
structure Utility where
  timeSending : UInt64 := 0
  packetsReceived : UInt64 := 0
  totalDelay : UInt64 := 0
  deriving DecidableEq, Repr

namespace Utility

/-- `Utility::sending_duration`. -/
def sendingDuration (u : Utility) (duration : UInt64) : Utility :=
  { u with timeSending := u.timeSending + duration }

/-- `Utility::packet_received`. -/
def packetReceived (u : Utility) (packet : Packet) (clock : Clock) :
    Except Stop (Utility × Clock) := do
  let (receivedTime, clock) ← timestamp clock
  if packet.echoReplyTimestamp ≤ receivedTime then
    return ({ u with
      packetsReceived := u.packetsReceived + 1
      totalDelay := u.totalDelay + (receivedTime - packet.echoReplyTimestamp) }, clock)
  else .error .assertFailed

end Utility

/-! ### The client -/

/-- `Client`, with the local variables of `Client::run`. -/
structure Client where
  addr : Address
  sock : Socket
  whiskers : WhiskerTree
  memory : Memory := .init
  track : Bool
  lastPacketSent : UInt64 := 0
  largestAck : UInt64 := 0
  theWindow : UInt64 := 0
  intersendTime : UInt64 := 0
  nextSeqnum : UInt64 := 0
  flowId : UInt64 := 1
  rto : UInt64 := 1000
  srtt : UInt64 := 0
  rttvar : UInt64 := 0
  utility : Utility := {}

namespace Client

/-- The weight of the deviation in the timeout. -/
def K : UInt64 := 4

/-- The weight of a new round-trip time in the smoothed one. -/
def alpha : DataType := 1 / 8

/-- The weight of a new deviation in the smoothed one. -/
def beta : DataType := 1 / 4

/-- `Client::set_window_intersend`. -/
def setWindowIntersend (c : Client) : Except Stop Client := do
  let (currentWhisker, whiskers) ← c.whiskers.useWhisker c.memory c.track
  let window ← currentWhisker.window c.theWindow.toUInt32
  let intersend ← toUInt64 currentWhisker.intersend
  return { c with whiskers := whiskers, theWindow := window.toUInt64, intersendTime := intersend }

/-- `Client::packet_received`.  A client that goes on has a ratio that is a number. -/
def packetReceived (c : Client) (packet : Packet) (clock : Clock) :
    Except Stop (Client × Clock) := do
  let largestAck := max packet.sequenceNumber c.largestAck
  let (memory, clock) ← c.memory.toSender.packetReceived packet c.flowId.toUInt32 clock
  let memory ← SenderMemory.point memory
  let c ← setWindowIntersend { c with largestAck := largestAck, memory := memory }
  return (c, clock)

/-- The round-trip estimates after a sample `r`. -/
def smooth (c : Client) (r : UInt64) : Except Stop Client :=
  if c.srtt = 0 then .ok { c with srtt := r, rttvar := r / 2 }
  else do
    let delta := if r < c.srtt then c.srtt - r else r - c.srtt
    let rttvar ← toUInt64 ((1 - beta) * c.rttvar.toNat + beta * delta.toNat)
    let srtt ← toUInt64 ((1 - alpha) * c.srtt.toNat + alpha * r.toNat)
    return { c with srtt := srtt, rttvar := rttvar }

/-- `Client::update_timeout`. -/
def updateTimeout (c : Client) (receivedPacket : Packet) (clock : Clock) :
    Except Stop (Client × Clock) := do
  let (receivedTime, clock) ← timestamp clock
  let c ← c.smooth (receivedTime - receivedPacket.echoReplyTimestamp)
  return ({ c with rto := max (c.srtt + K * c.rttvar) 1000 }, clock)

/-- `Client::next_event_time`. -/
def nextEventTime (c : Client) : UInt64 := c.lastPacketSent + c.intersendTime

/-- The callback of the poller's action, where `incoming` is what `::recvmsg` delivers. -/
def receive (c : Client) (incoming : Option Datagram) (clock : Clock) :
    Except Stop (Client × Clock) := do
  let receivedPacket ← Socket.recv incoming
  let (c, clock) ← c.packetReceived receivedPacket clock
  let (c, clock) ← c.updateTimeout receivedPacket clock
  let (utility, clock) ← c.utility.packetReceived receivedPacket clock
  return ({ c with utility := utility }, clock)

/-- What the callback looks at: the client, the datagram that came and the clock. -/
structure Env where
  client : Client
  incoming : Option Datagram
  clock : Clock

/-- The callback as a function of what it looks at. -/
def Env.receive (env : Env) : Except Stop Env :=
  (env.client.receive env.incoming env.clock).map fun r =>
    { env with client := r.1, clock := r.2 }

/-- The action that `Client::run` adds to its poller.  Nothing ever calls `read()` on the
descriptor of the socket, which so never has its end of file. -/
def receiveAction : Poller.Action Env where
  eof := fun _ => false
  direction := .in_
  callback := fun env => env.receive.map fun env => ({}, env)

/-- What a round of the client's poller comes to. -/
theorem poll_receiveAction (env : Env) (timeoutMs : Int32) (outcome : SysPoll) :
    Poller.poll [receiveAction] timeoutMs (fun _ _ => outcome) env =
      match outcome with
      | .error => .error (.throw (.exception "poll"))
      | .timeout => .ok ({ result := .timeout }, [receiveAction], env)
      | .ready revents =>
        if reportsError (revents.headD 0) then .ok ({ result := .exit }, [receiveAction], env)
        else if Poller.readable (revents.headD 0) then
          env.receive.map fun env => ({ result := .success }, [receiveAction], env)
        else .ok ({ result := .success }, [receiveAction], env) :=
  Poller.poll_single rfl rfl rfl rfl rfl timeoutMs outcome

/-- `"Hello from Client"`. -/
def helloPayload : ByteString :=
  [0x48, 0x65, 0x6c, 0x6c, 0x6f, 0x20, 0x66, 0x72, 0x6f, 0x6d, 0x20, 0x43, 0x6c, 0x69, 0x65, 0x6e,
    0x74]

/-- The packet the client sends next.  Its flow id is zero. -/
def sendPacket [Platform] (c : Client) : Packet :=
  .make c.addr 0 c.nextSeqnum 0 helloPayload

/-- The members after the constructor and the locals after the first lines of `Client::run`, before
the initial window. -/
def make (addr : Address) (sock : Socket) (whiskers : WhiskerTree) (track : Bool) : Client where
  addr := addr
  sock := sock
  whiskers := whiskers
  track := track

/-! ### What a reception does -/

/-- The rule for the memory `m` gives the window `theWindow`, and leaves the table `whiskers`. -/
def UsesRule (c : Client) (m : Memory) (whiskers : WhiskerTree) (theWindow : UInt64) : Prop :=
  ∃ (w : Whisker) (window : UInt32), c.whiskers.useWhisker m c.track = .ok (w, whiskers) ∧
    w.window c.theWindow.toUInt32 = .ok window ∧ theWindow = window.toUInt64

/-- A window that a rule gave is clamped. -/
theorem UsesRule.window_le {c : Client} {m : Memory} {whiskers : WhiskerTree} {theWindow : UInt64}
    (h : UsesRule c m whiskers theWindow) : theWindow.toNat ≤ 1000000 := by
  obtain ⟨w, window, -, hwindow, rfl⟩ := h
  rw [UInt32.toNat_toUInt64]
  exact Whisker.window_le hwindow

/-- The window was set by the rule for the memory: `c'` is what `set_window_intersend` makes
of `c`. -/
structure WindowSet (c c' : Client) : Prop where
  used : UsesRule c c.memory c'.whiskers c'.theWindow
  rest : ∃ intersend, c' =
    { c with whiskers := c'.whiskers, theWindow := c'.theWindow, intersendTime := intersend }

/-- The parts of `set_window_intersend`. -/
theorem setWindowIntersend_parts {c c' : Client} (h : c.setWindowIntersend = .ok c') :
    ∃ w whiskers window intersend, c.whiskers.useWhisker c.memory c.track = .ok (w, whiskers) ∧
      w.window c.theWindow.toUInt32 = .ok window ∧ toUInt64 w.intersend = .ok intersend ∧
      c' = { c with
        whiskers := whiskers, theWindow := window.toUInt64, intersendTime := intersend } := by
  unfold setWindowIntersend at h
  obtain ⟨⟨w, whiskers⟩, hused, h⟩ := bind_eq_ok.mp h
  obtain ⟨window, hwindow, h⟩ := bind_eq_ok.mp h
  obtain ⟨intersend, hintersend, h⟩ := bind_eq_ok.mp h
  exact ⟨w, whiskers, window, intersend, hused, hwindow, hintersend, (Except.ok.inj h).symm⟩

theorem setWindowIntersend_eq_ok {c c' : Client} (h : c.setWindowIntersend = .ok c') :
    WindowSet c c' := by
  obtain ⟨w, whiskers, window, intersend, hused, hwindow, -, rfl⟩ := setWindowIntersend_parts h
  exact ⟨⟨w, window, hused, hwindow, rfl⟩, intersend, rfl⟩

/-- The estimates of the round-trip time are all that `update_timeout` changes. -/
theorem updateTimeout_eq_ok {c c' : Client} {p : Packet} {clock clock' : Clock}
    (h : c.updateTimeout p clock = .ok (c', clock')) :
    ∃ srtt rttvar rto, c' = { c with srtt := srtt, rttvar := rttvar, rto := rto } := by
  unfold updateTimeout at h
  obtain ⟨⟨now, rest⟩, -, h⟩ := bind_eq_ok.mp h
  obtain ⟨s, hs, h⟩ := bind_eq_ok.mp h
  obtain ⟨rfl, -⟩ := Prod.mk.inj (Except.ok.inj h)
  unfold smooth at hs
  split at hs
  · obtain rfl := Except.ok.inj hs
    exact ⟨_, _, _, rfl⟩
  · obtain ⟨rttvar, -, hs⟩ := bind_eq_ok.mp hs
    obtain ⟨srtt, -, hs⟩ := bind_eq_ok.mp hs
    obtain rfl := Except.ok.inj hs
    exact ⟨_, _, _, rfl⟩

/-- What the reception of a packet `p` does to a client, when it comes to its end. -/
structure Received (c : Client) (p : Packet) (clock : Clock) (c' : Client) : Prop where
  addr : c'.addr = c.addr
  sock : c'.sock = c.sock
  track : c'.track = c.track
  flowId : c'.flowId = c.flowId
  nextSeqnum : c'.nextSeqnum = c.nextSeqnum
  /-- It is the sequence number of the acknowledgement that counts. -/
  largestAck : c'.largestAck = max p.sequenceNumber c.largestAck
  memory : ∃ rest,
    c.memory.toSender.packetReceived p c.flowId.toUInt32 clock = .ok (c'.memory.toSender, rest)
  /-- The rule is looked up in the memory after the update. -/
  window : UsesRule c c'.memory c'.whiskers c'.theWindow

/-- The parts of a reception: the memory, the window and the timeout are updated in this order. -/
theorem receive_parts {c c' : Client} {incoming : Option Datagram} {clock clock' : Clock}
    (h : c.receive incoming clock = .ok (c', clock')) :
    ∃ d p memory rest c₀ c₁ rest' utility, incoming = some d ∧ d.packet = .ok p ∧
      c.memory.toSender.packetReceived p c.flowId.toUInt32 clock = .ok (memory.toSender, rest) ∧
      setWindowIntersend
        { c with largestAck := max p.sequenceNumber c.largestAck, memory := memory } = .ok c₀ ∧
      c₀.updateTimeout p rest = .ok (c₁, rest') ∧ c' = { c₁ with utility := utility } := by
  unfold receive at h
  obtain ⟨p, hrecv, h⟩ := bind_eq_ok.mp h
  obtain ⟨⟨c₀, rest⟩, hpacket, h⟩ := bind_eq_ok.mp h
  obtain ⟨⟨c₁, rest'⟩, htimeout, h⟩ := bind_eq_ok.mp h
  obtain ⟨⟨utility, rest''⟩, -, h⟩ := bind_eq_ok.mp h
  obtain ⟨rfl, -⟩ := Prod.mk.inj (Except.ok.inj h)
  obtain ⟨d, hd, hp⟩ := Socket.recv_eq_ok hrecv
  unfold packetReceived at hpacket
  obtain ⟨⟨sender, rest⟩, hmemory, hpacket⟩ := bind_eq_ok.mp hpacket
  obtain ⟨memory, hpoint, hpacket⟩ := bind_eq_ok.mp hpacket
  obtain ⟨c₀, hset, hpacket⟩ := bind_eq_ok.mp hpacket
  obtain ⟨rfl, rfl⟩ := Prod.mk.inj (Except.ok.inj hpacket)
  obtain rfl := SenderMemory.point_eq_ok.mp hpoint
  exact ⟨d, p, memory, rest, c₀, c₁, rest', utility, hd, hp, hmemory, hset, htimeout, rfl⟩

/-- **What a reception does** that comes to its end. -/
theorem receive_eq_ok {c c' : Client} {incoming : Option Datagram} {clock clock' : Clock}
    (h : c.receive incoming clock = .ok (c', clock')) :
    ∃ d p, incoming = some d ∧ d.packet = .ok p ∧ Received c p clock c' := by
  obtain ⟨d, p, memory, rest, c₀, c₁, rest', utility, hd, hp, hmemory, hset, htimeout, rfl⟩ :=
    receive_parts h
  refine ⟨d, p, hd, hp, ?_⟩
  -- the timeout and the utility touch nothing of what is said here
  obtain ⟨srtt, rttvar, rto, rfl⟩ := updateTimeout_eq_ok htimeout
  obtain ⟨hused, intersend, hc₀⟩ := setWindowIntersend_eq_ok hset
  have hm : c₀.memory = memory := congrArg Client.memory hc₀
  constructor
  case memory => exact ⟨rest, by rw [hmemory, ← hm]⟩
  case window =>
    show UsesRule c c₀.memory c₀.whiskers c₀.theWindow
    rw [hm]
    exact hused
  all_goals rw [hc₀]

end Client

end SendReceive
