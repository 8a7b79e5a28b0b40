import SendReceive.Client
import SendReceive.Server

/-!
# The length of the payload in the header

A packet says in the last word of its header how long its payload is.  The word is written when
the packet is built, from `sizeof` of the string object instead of its size; it is carried along
by the encoding and read by nobody, as a payload ends where the datagram ends.

* `Packet.Stamp`, `Packet.stampAll` — a packet whose timestamps are filled in.
* `Packet.Describes` — what the other side decodes describes its payload.
* `Packet.describes_iff` — **when a packet that was built describes its payload**.
* `not_describes_both` — not both the client's and the server's packets do.
-/

namespace SendReceive

namespace Packet

/-- A timestamp that is filled in after a packet was built. -/
inductive Stamp where
  /-- `set_send_timestamp()`, at the time `now`. -/
  | send (now : UInt64)
  /-- `set_echo_reply_timestamp( echo_timestamp )`. -/
  | echoReply (echoTimestamp : UInt64)
  deriving DecidableEq, Repr

/-- The packet with a timestamp filled in. -/
def stamp (p : Packet) : Stamp → Packet
  | .send now => p.setSendTimestamp now
  | .echoReply echoTimestamp => p.setEchoReplyTimestamp echoTimestamp

/-- The packet with timestamps filled in one after the other. -/
def stampAll (p : Packet) (stamps : List Stamp) : Packet := stamps.foldl stamp p

/-- The packet that `source` is found to have sent has the length of its payload in its header, and
the encoding has that length on top of the header's. -/
def Describes (p : Packet) (source : Address) : Prop :=
  ∃ q, ofString source p.str = .ok q ∧ q.payloadLen.toNat = q.payload.length ∧
    p.str.length = headerLength + q.payloadLen.toNat

/-- Timestamps are apart from the payload and its length. -/
theorem stampAll_payload (stamps : List Stamp) : ∀ p : Packet,
    (p.stampAll stamps).payload = p.payload ∧ (p.stampAll stamps).payloadLen = p.payloadLen := by
  induction stamps with
  | nil => intro p; exact ⟨rfl, rfl⟩
  | cons s stamps ih =>
    intro p
    have hstamp : (p.stamp s).payload = p.payload ∧ (p.stamp s).payloadLen = p.payloadLen := by
      cases s with
      | send now => exact ⟨rfl, rfl⟩
      | echoReply echoTimestamp => exact ⟨rfl, rfl⟩
    rw [← hstamp.1, ← hstamp.2]
    exact ih (p.stamp s)

/-- The header comes through as it is, so that the word has to be right from the beginning. -/
theorem describes_iff_payloadLen (p : Packet) (source : Address) :
    p.Describes source ↔ p.payloadLen.toNat = p.payload.length := by
  constructor
  · rintro ⟨q, hq, hlen, -⟩
    rw [ofString_str, Except.ok.injEq] at hq
    subst hq
    exact hlen
  · intro hlen
    refine ⟨_, ofString_str source p, hlen, ?_⟩
    rw [length_str]
    exact congrArg (headerLength + ·) hlen.symm

/-- **When a packet that was built describes its payload**: only when the payload happens to be
as long as a `std::string` object is. -/
theorem describes_iff [Platform] (addr source : Address) (flowId sequenceNumber ackNumber : UInt64)
    (payload : ByteString) (stamps : List Stamp) :
    ((make addr flowId sequenceNumber ackNumber payload).stampAll stamps).Describes source ↔
      payload.length = Platform.sizeofString.toNat := by
  obtain ⟨hpayload, hlen⟩ :=
    stampAll_payload stamps (make addr flowId sequenceNumber ackNumber payload)
  rw [describes_iff_payloadLen, hpayload, hlen, eq_comm]
  rfl

/-- The client's own payload on the platform the sources were built on: a packet with seventeen
bytes says that it has eight. -/
theorem not_describes_hello : letI := gcc48
    ¬ ((make ⟨0, 0⟩ 0 0 0 Client.helloPayload).stampAll [.send 5]).Describes ⟨0, 0⟩ := by
  let _ := gcc48
  rw [describes_iff_payloadLen]
  decide

end Packet

variable [Platform]

theorem Client.describes_sendPacket_iff (c : Client) (now : UInt64) (source : Address) :
    (c.sendPacket.setSendTimestamp now).Describes source ↔ Platform.sizeofString.toNat = 17 := by
  rw [Packet.describes_iff_payloadLen]
  exact Iff.rfl

theorem Server.describes_reply_iff (p : Packet) (now : UInt64) (source : Address) :
    ((Server.reply p).setSendTimestamp now).Describes source ↔
      Platform.sizeofString.toNat = 3 := by
  rw [Packet.describes_iff_payloadLen]
  exact Iff.rfl

/-- **On no platform do the packets of both sides describe their payloads.** -/
theorem not_describes_both (c : Client) (p : Packet) (now now' : UInt64) (source : Address) :
    ¬ ((c.sendPacket.setSendTimestamp now).Describes source ∧
      ((Server.reply p).setSendTimestamp now').Describes source) := by
  rw [Client.describes_sendPacket_iff, Server.describes_reply_iff]
  omega

end SendReceive
