import SendReceive.Lib.BigEndian
import SendReceive.Runtime
import Mathlib.Tactic.IntervalCases

/-!
# Packets and their wire format

A packet travels as six header words of eight bytes each, in network byte order,
followed by the payload.  The sources write the words one by one in `Packet::str`
and read them back by position in the constructor from a string.

## Main definitions

* `Integer64` — a word of the header.
* `Packet`, `Packet.make`, `Packet.ofString`, `Packet.str` — packets, the two
  constructors and the serialisation.

## Main results

* `Packet.ofString_append` — decoding six words and a payload.
* `Packet.ofString_str`, `Packet.str_of_ofString` — the round trips.
* `Packet.ofString_eq_ok_iff` — the strings that decode.
* `Packet.ofString_of_short` — what decoding a shorter string throws.
-/

namespace SendReceive

open BigEndian

/-! ### Addresses -/

/-- `Address`: an IPv4 address and a port, both as the system stores them. -/
structure Address where
  sinAddr : UInt32
  sinPort : UInt16
  deriving DecidableEq, Repr, Inhabited

/-! ### The words of the header -/

/-- `sizeof( uint64_t )`. -/
def sizeofUInt64 : ℕ := 8

/-- A 64-bit integer that is transmitted in network byte order. -/
structure Integer64 where
  contents_ : UInt64
  deriving DecidableEq, Repr, Inhabited

namespace Integer64

/-- The integer. -/
def int64 (i : Integer64) : UInt64 := i.contents_

@[simp] theorem int64_mk (n : UInt64) : int64 ⟨n⟩ = n := rfl

/-- Construct the integer from a network-byte-order string. -/
def ofString (contents : ByteString) : Except Stop Integer64 :=
  if contents.length ≠ sizeofUInt64 then
    .error (.throw (.string "Size mismatch in Integer64 constructor."))
  else .ok ⟨UInt64.ofNat (ofBE contents)⟩

/-- The network-byte-order representation of the integer. -/
def str (i : Integer64) : ByteString := toBE sizeofUInt64 i.int64.toNat

@[simp] theorem length_str (i : Integer64) : i.str.length = sizeofUInt64 := length_toBE _ _

theorem ofString_str (i : Integer64) : ofString i.str = .ok i := by
  have hlt : i.int64.toNat < 256 ^ sizeofUInt64 := i.int64.toNat_lt
  rw [ofString, if_neg (by simp), str, ofBE_toBE, Nat.mod_eq_of_lt hlt, UInt64.ofNat_toNat]
  rfl

theorem ofString_eq_ok {contents : ByteString} {i : Integer64} :
    ofString contents = .ok i ↔ contents = i.str := by
  constructor
  · intro h
    rw [ofString] at h
    split at h
    · cases h
    · rename_i hlen
      rw [not_not] at hlen
      have hlt : ofBE contents < 2 ^ 64 := by
        have := ofBE_lt contents
        rw [hlen] at this
        exact this
      obtain rfl := Except.ok.inj h
      rw [str, int64_mk, UInt64.toNat_ofNat_of_lt' hlt, ← hlen, toBE_ofBE]
  · rintro rfl
    exact ofString_str i

theorem ofString_of_length_ne {contents : ByteString} (h : contents.length ≠ sizeofUInt64) :
    ofString contents = .error (.throw (.string "Size mismatch in Integer64 constructor.")) :=
  if_pos h

end Integer64

/-! ### Packets -/

/-- `Packet`. -/
structure Packet where
  addr_ : Address
  flowId_ : Integer64
  sequenceNumber_ : Integer64
  ackNumber_ : Integer64
  sendTimestamp_ : Integer64
  echoReplyTimestamp_ : Integer64
  payload_ : ByteString
  payloadLen_ : Integer64
  deriving DecidableEq, Repr

/-- `string::substr( pos, n )`: clipped at the end of the string, but starting
inside it. -/
def substr (str : ByteString) (pos n : ℕ) : Except Stop ByteString :=
  if str.length < pos then .error (.throw .outOfRange) else .ok ((str.drop pos).take n)

/-- The `k`-th word of a header: `str.substr( k * sizeof( uint64_t ), sizeof( uint64_t ) )`
converted to an `Integer64`. -/
def word (str : ByteString) (k : ℕ) : Except Stop Integer64 := do
  Integer64.ofString (← substr str (k * sizeofUInt64) sizeofUInt64)

namespace Packet

/-- `Packet::addr`. -/
def addr (p : Packet) : Address := p.addr_
/-- `Packet::flow_id`. -/
def flowId (p : Packet) : UInt64 := p.flowId_.int64
/-- `Packet::sequence_number`. -/
def sequenceNumber (p : Packet) : UInt64 := p.sequenceNumber_.int64
/-- `Packet::ack_number`. -/
def ackNumber (p : Packet) : UInt64 := p.ackNumber_.int64
/-- `Packet::send_timestamp`. -/
def sendTimestamp (p : Packet) : UInt64 := p.sendTimestamp_.int64
/-- `Packet::echo_reply_timestamp`. -/
def echoReplyTimestamp (p : Packet) : UInt64 := p.echoReplyTimestamp_.int64
/-- `Packet::payload`. -/
def payload (p : Packet) : ByteString := p.payload_
/-- `Packet::payload_len`. -/
def payloadLen (p : Packet) : UInt64 := p.payloadLen_.int64

/-- The constructor from header fields and a payload.  It takes `sizeof` of the
`std::string` object for the length of the payload. -/
def make [Platform] (addr : Address) (flowId sequenceNumber ackNumber : UInt64)
    (payload : ByteString) : Packet where
  addr_ := addr
  flowId_ := ⟨flowId⟩
  sequenceNumber_ := ⟨sequenceNumber⟩
  ackNumber_ := ⟨ackNumber⟩
  sendTimestamp_ := ⟨0⟩
  echoReplyTimestamp_ := ⟨0⟩
  payload_ := payload
  payloadLen_ := ⟨Platform.sizeofString⟩

/-- The constructor from a received string. -/
def ofString (addr : Address) (str : ByteString) : Except Stop Packet := do
  let flowId ← word str 0
  let sequenceNumber ← word str 1
  let ackNumber ← word str 2
  let sendTimestamp ← word str 3
  let echoReplyTimestamp ← word str 4
  let payloadLen ← word str 5
  let payload ← substr str (6 * sizeofUInt64) str.length
  return {
    addr_ := addr
    flowId_ := flowId
    sequenceNumber_ := sequenceNumber
    ackNumber_ := ackNumber
    sendTimestamp_ := sendTimestamp
    echoReplyTimestamp_ := echoReplyTimestamp
    payload_ := payload
    payloadLen_ := payloadLen }

/-- The serialised packet. -/
def str (p : Packet) : ByteString :=
  p.flowId_.str ++ p.sequenceNumber_.str ++ p.ackNumber_.str ++ p.sendTimestamp_.str
    ++ p.echoReplyTimestamp_.str ++ p.payloadLen_.str ++ p.payload_

/-- Fill in the send timestamp with the clock reading `now`. -/
def setSendTimestamp (p : Packet) (now : UInt64) : Packet := { p with sendTimestamp_ := ⟨now⟩ }

/-- Fill in the echo reply timestamp. -/
def setEchoReplyTimestamp (p : Packet) (echoTimestamp : UInt64) : Packet :=
  { p with echoReplyTimestamp_ := ⟨echoTimestamp⟩ }

/-- The length of the header: six words. -/
def headerLength : ℕ := 6 * sizeofUInt64

end Packet

/-! ### Reading one word -/

@[simp] theorem length_flatMap_str (ws : List Integer64) :
    (ws.flatMap Integer64.str).length = ws.length * sizeofUInt64 := by
  induction ws with
  | nil => simp
  | cons w ws ih =>
    rw [List.flatMap_cons, List.length_append, Integer64.length_str, ih, List.length_cons,
      Nat.add_mul, Nat.one_mul, Nat.add_comm]

theorem substr_append (s t : ByteString) (n : ℕ) :
    substr (s ++ t) s.length n = .ok (t.take n) := by
  rw [substr, if_neg (by simp), List.drop_left]

/-- Reading back the `k`-th of some words that were written one after the other. -/
theorem word_flatMap_str (ws : List Integer64) (t : ByteString) {k : ℕ} (hk : k < ws.length) :
    word (ws.flatMap Integer64.str ++ t) k = .ok ws[k] := by
  have hsplit : ws.flatMap Integer64.str ++ t = (ws.take k).flatMap Integer64.str
      ++ (ws[k].str ++ ((ws.drop (k + 1)).flatMap Integer64.str ++ t)) := by
    conv_lhs => rw [← List.take_append_drop k ws, List.drop_eq_getElem_cons hk]
    simp only [List.flatMap_append, List.flatMap_cons, List.append_assoc]
  have hlen : ((ws.take k).flatMap Integer64.str).length = k * sizeofUInt64 := by
    rw [length_flatMap_str, List.length_take, Nat.min_eq_left hk.le]
  rw [word, hsplit, ← hlen, substr_append, ok_bind, List.take_left' (Integer64.length_str _),
    Integer64.ofString_str]

/-- A word that is there is read. -/
theorem word_of_le {s : ByteString} {k : ℕ} (h : (k + 1) * sizeofUInt64 ≤ s.length) :
    word s k = .ok ⟨UInt64.ofNat (ofBE ((s.drop (k * sizeofUInt64)).take sizeofUInt64))⟩ := by
  rw [Nat.add_mul, Nat.one_mul] at h
  have hlen : ((s.drop (k * sizeofUInt64)).take sizeofUInt64).length = sizeofUInt64 := by
    rw [List.length_take, List.length_drop]
    omega
  rw [word, substr, if_neg (by omega), ok_bind, Integer64.ofString, if_neg (by rw [hlen]; simp)]

/-- A word that is cut short is a size mismatch. -/
theorem word_of_short {s : ByteString} {k : ℕ} (hge : k * sizeofUInt64 ≤ s.length)
    (hlt : s.length < (k + 1) * sizeofUInt64) :
    word s k = .error (.throw (.string "Size mismatch in Integer64 constructor.")) := by
  rw [Nat.add_mul, Nat.one_mul] at hlt
  have hlen : ((s.drop (k * sizeofUInt64)).take sizeofUInt64).length ≠ sizeofUInt64 := by
    rw [List.length_take, List.length_drop]
    omega
  rw [word, substr, if_neg (by omega), ok_bind, Integer64.ofString_of_length_ne hlen]

/-- Eight bytes are a word. -/
theorem exists_str_eq_of_length {b : ByteString} (h : b.length = sizeofUInt64) :
    ∃ i : Integer64, b = i.str := by
  have hok : Integer64.ofString b = .ok ⟨UInt64.ofNat (ofBE b)⟩ := by
    rw [Integer64.ofString, if_neg (by rw [h]; simp)]
  exact ⟨_, Integer64.ofString_eq_ok.mp hok⟩

/-- A string that is long enough begins with `n` words. -/
theorem exists_words : ∀ (n : ℕ) {s : ByteString}, n * sizeofUInt64 ≤ s.length →
    ∃ ws : List Integer64, ws.length = n ∧
      s = ws.flatMap Integer64.str ++ s.drop (n * sizeofUInt64) := by
  intro n
  induction n with
  | zero => intro s _; exact ⟨[], rfl, by simp⟩
  | succ n ih =>
    intro s h
    rw [Nat.add_mul, Nat.one_mul] at h
    obtain ⟨w, hw⟩ := exists_str_eq_of_length (b := s.take sizeofUInt64)
      (by rw [List.length_take]; omega)
    obtain ⟨ws, hlen, hws⟩ := ih (s := s.drop sizeofUInt64) (by rw [List.length_drop]; omega)
    refine ⟨w :: ws, by rw [List.length_cons, hlen], ?_⟩
    rw [List.flatMap_cons, ← hw, List.append_assoc, Nat.add_mul, Nat.one_mul, Nat.add_comm,
      ← List.drop_drop, ← hws, List.take_append_drop]

namespace Packet

/-! ### Decoding -/

/-- **Decoding six words and a payload.** -/
theorem ofString_append (addr : Address) (f s a t e n : Integer64) (payload : ByteString) :
    ofString addr ([f, s, a, t, e, n].flatMap Integer64.str ++ payload) = .ok {
      addr_ := addr
      flowId_ := f
      sequenceNumber_ := s
      ackNumber_ := a
      sendTimestamp_ := t
      echoReplyTimestamp_ := e
      payload_ := payload
      payloadLen_ := n } := by
  have hword : ∀ k, (hk : k < 6) → word ([f, s, a, t, e, n].flatMap Integer64.str ++ payload) k
      = .ok [f, s, a, t, e, n][k] := fun k hk => word_flatMap_str _ payload hk
  have hlen : ([f, s, a, t, e, n].flatMap Integer64.str).length = 6 * sizeofUInt64 :=
    length_flatMap_str _
  have hpayload : payload.length ≤ ([f, s, a, t, e, n].flatMap Integer64.str ++ payload).length := by
    rw [List.length_append]
    exact Nat.le_add_left _ _
  -- what is left after the words is the payload
  rw [ofString, hword 0 (by omega), hword 1 (by omega), hword 2 (by omega), hword 3 (by omega),
    hword 4 (by omega), hword 5 (by omega), ← hlen, substr_append, List.take_of_length_le hpayload]
  rfl

theorem str_eq (p : Packet) : p.str = [p.flowId_, p.sequenceNumber_, p.ackNumber_,
    p.sendTimestamp_, p.echoReplyTimestamp_, p.payloadLen_].flatMap Integer64.str ++ p.payload_ := by
  simp [str]

@[simp] theorem length_str (p : Packet) : p.str.length = headerLength + p.payload.length := by
  rw [str_eq, List.length_append, length_flatMap_str]
  rfl

/-- **Decoding an encoded packet** gives it back, with the address it came from. -/
theorem ofString_str (addr : Address) (p : Packet) :
    ofString addr p.str = .ok { p with addr_ := addr } := by
  rw [str_eq, ofString_append]

/-- **A string that is cut short in the header does not decode**: the first word that
is not complete throws a `std::string`. -/
theorem ofString_of_short (addr : Address) {s : ByteString} (h : s.length < headerLength) :
    ofString addr s = .error (.throw (.string "Size mismatch in Integer64 constructor.")) := by
  -- `k` is the first word that is not whole
  obtain ⟨k, hk, hge, hlt⟩ : ∃ k < 6, k * sizeofUInt64 ≤ s.length ∧
      s.length < (k + 1) * sizeofUInt64 := by
    refine ⟨s.length / sizeofUInt64, Nat.div_lt_of_lt_mul h, Nat.div_mul_le_self _ _, ?_⟩
    rw [sizeofUInt64]
    omega
  have hbefore : ∀ j < k, word s j
      = .ok ⟨UInt64.ofNat (ofBE ((s.drop (j * sizeofUInt64)).take sizeofUInt64))⟩ :=
    fun j hj => word_of_le (le_trans (Nat.mul_le_mul_right _ hj) hge)
  have hthrow := word_of_short hge hlt
  rw [ofString]
  interval_cases k <;> simp [hbefore, hthrow]

/-- A string with a whole header is the encoding of a packet. -/
theorem exists_str_eq (addr : Address) {s : ByteString} (h : headerLength ≤ s.length) :
    ∃ p : Packet, p.addr = addr ∧ s = p.str := by
  obtain ⟨ws, hws, hs⟩ := exists_words 6 h
  match ws, hws with
  | [f, q, a, t, e, n], _ =>
    exact ⟨⟨addr, f, q, a, t, e, s.drop (6 * sizeofUInt64), n⟩, rfl, by rw [str_eq]; exact hs⟩

/-- **The strings that decode** are those with a whole header. -/
theorem ofString_eq_ok_iff {addr : Address} {s : ByteString} :
    (∃ p, ofString addr s = .ok p) ↔ headerLength ≤ s.length := by
  constructor
  · rintro ⟨p, hp⟩
    by_contra hlt
    rw [ofString_of_short addr (not_le.mp hlt)] at hp
    cases hp
  · intro hle
    obtain ⟨p, -, rfl⟩ := exists_str_eq addr hle
    exact ⟨_, ofString_str addr p⟩

/-- **Encoding a decoded packet** gives the string back. -/
theorem str_of_ofString {addr : Address} {s : ByteString} {p : Packet}
    (h : ofString addr s = .ok p) : p.str = s ∧ p.addr = addr := by
  obtain ⟨q, hq, rfl⟩ := exists_str_eq addr (ofString_eq_ok_iff.mp ⟨p, h⟩)
  rw [ofString_str, Except.ok.injEq] at h
  subst h
  exact ⟨rfl, rfl⟩

/-- **The wire format is a bijection with the byte strings of at least 48 bytes.**  A packet
that was encoded decodes to the same header and payload; exactly the strings with a whole
header decode, and the packet they decode to encodes to the string. -/
theorem wire_format_bijection (addr : Address) :
    (∀ p : Packet, ∃ q, ofString addr p.str = .ok q ∧ q.addr = addr ∧ q.flowId = p.flowId ∧
      q.sequenceNumber = p.sequenceNumber ∧ q.ackNumber = p.ackNumber ∧
      q.sendTimestamp = p.sendTimestamp ∧ q.echoReplyTimestamp = p.echoReplyTimestamp ∧
      q.payloadLen = p.payloadLen ∧ q.payload = p.payload) ∧
    (∀ s : ByteString, (∃ q, ofString addr s = .ok q) ↔ 48 ≤ s.length) ∧
    (∀ (s : ByteString) (q : Packet), ofString addr s = .ok q → q.str = s) ∧
    ∀ (p : Packet) (k : ℕ), k < 48 → ¬ ∃ q, ofString addr (p.str.take k) = .ok q := by
  refine ⟨fun p => ?_, fun s => ofString_eq_ok_iff, fun s q h => (str_of_ofString h).1, ?_⟩
  · exact ⟨_, ofString_str addr p, rfl, rfl, rfl, rfl, rfl, rfl, rfl, rfl⟩
  · intro p k hk h
    have hlen : headerLength ≤ (p.str.take k).length := ofString_eq_ok_iff.mp h
    rw [List.length_take] at hlen
    have hheader : headerLength = 48 := rfl
    omega

/-- A header of forty-eight bytes and one byte of payload, and its first forty-seven bytes. -/
theorem wire_format_bijection_of_header :
    (∃ q, ofString ⟨0, 0⟩ (List.replicate 48 7 ++ [1]) = .ok q ∧
      q.str = List.replicate 48 7 ++ [1]) ∧
    ¬ ∃ q, ofString ⟨0, 0⟩ (List.replicate 47 (7 : UInt8)) = .ok q := by
  obtain ⟨-, haccept, hback, -⟩ := wire_format_bijection ⟨0, 0⟩
  obtain ⟨q, hq⟩ := (haccept (List.replicate 48 7 ++ [1])).mpr (by decide)
  refine ⟨⟨q, hq, hback _ q hq⟩, fun h => ?_⟩
  exact absurd ((haccept _).mp h) (by decide)

end Packet

end SendReceive
