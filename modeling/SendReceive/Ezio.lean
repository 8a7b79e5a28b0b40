import SendReceive.Runtime
import SendReceive.Lib.Transition

/-!
# Reading and writing descriptors

`writeall` writes a whole buffer by as many calls of `::write` as the system needs for it, and
`readall` makes one call of `::read`.  A `FileDescriptor` notes the end of file when nothing was
read.  One process writes a buffer and closes its end; another one reads from the other end.

## Main definitions

* `Ezio.writeSome`, `Ezio.readall` — the two functions, for what the system calls give.
* `Stream`, `Stream.step` — the two processes and what is on the way between them.
* `Stream.Inv` — what holds in all reachable states.

## Main results

* `Stream.step_effect` — **every step does what `Effect` says**.
* `Stream.exists_completion` — the transfer can be brought to its end.
* `Stream.delivers` — **what a reader gets of a buffer**.
-/

namespace SendReceive

open Transition (exec)

namespace Ezio

/-- `ezio::read_chunk_size`. -/
def readChunkSize : ℕ := 2 ^ 18

/-- What a call of `::write` or `::read` gives: it fails, or so many bytes were written or read. -/
inductive SysCount where
  | error
  | count (bytes : ℕ)
  deriving DecidableEq, Repr

/-- `write_some`, for the bytes from `begin` to `end`: those that are left. -/
def writeSome (outcome : SysCount) (rest : ByteString) : Except Stop ByteString :=
  if 0 < rest.length then
    match outcome with
    | .error => .error (.throw (.exception "write"))
    | .count 0 => .error (.throw (.exception "write returned 0"))
    | .count (bytesWritten + 1) => .ok (rest.drop (bytesWritten + 1))
  else .error .assertFailed

/-- `readall`, where the bytes `available` can be read: what was read, and what is left of them. -/
def readall (limit : ℕ) (outcome : SysCount) (available : ByteString) :
    Except Stop (ByteString × ByteString) :=
  if 0 < limit then
    match outcome with
    | .error => .error (.throw (.exception "read"))
    | .count bytesRead => .ok (available.take bytesRead, available.drop bytesRead)
  else .error .assertFailed

end Ezio

open Ezio

/-- Where `writeall` is, and the destructor of the descriptor after it. -/
inductive WriterPc where
  /-- At the condition of the loop. -/
  | writing
  /-- The loop came to its end. -/
  | returned
  /-- An exception left the loop, or an assertion failed. -/
  | stopped (why : Stop)
  deriving DecidableEq, Repr

/-- A process that writes a buffer, one that reads, and what is on the way between them. -/
structure Stream where
  /-- What `writeall` has not written yet. -/
  rest : ByteString
  writer : WriterPc
  /-- The writer has closed its end. -/
  closed : Bool
  inFlight : ByteString
  /-- What the calls of `FileDescriptor::read` gave. -/
  received : ByteString
  /-- `eof_` of the reader. -/
  eof : Bool
  /-- What ended the reader. -/
  readerStopped : Option Stop
  deriving DecidableEq, Repr

namespace Stream

/-- What happens between the two. -/
inductive Event where
  /-- A turn of the loop of `writeall`. -/
  | write (outcome : SysCount)
  /-- The end of the loop. -/
  | writeReturns
  /-- The destructor of the writer's descriptor. -/
  | close
  /-- `FileDescriptor::read( limit )`. -/
  | read (limit : ℕ) (outcome : SysCount)
  deriving DecidableEq, Repr

/-- A call of `::write` that took some bytes. -/
def Event.wrote : Event → Bool
  | .write (.count (_ + 1)) => true
  | _ => false

/-- A call of `FileDescriptor::read` with a limit of zero. -/
def Event.readsNothing : Event → Bool
  | .read 0 _ => true
  | _ => false

/-- The state in which `writeall` is called with a buffer. -/
def start (buf : ByteString) : Stream := ⟨buf, .writing, false, [], [], false, none⟩

/-- What `::write` may give for so many bytes. -/
def writable (s : Stream) : SysCount → Bool
  | .error => true
  | .count bytes => bytes ≤ s.rest.length

/-- What `::read` may give: some of the bytes that are on the way, and none of them only when there
are none and the other end is closed. -/
def readable (s : Stream) (limit : ℕ) : SysCount → Bool
  | .error => true
  | .count bytes => bytes ≤ min readChunkSize limit && bytes ≤ s.inFlight.length &&
      (bytes != 0 || s.inFlight.isEmpty && s.closed)

/-- One step. -/
def step (s : Stream) (e : Event) : Option Stream :=
  match e with
  | .write outcome =>
    if s.writer = .writing ∧ s.rest ≠ [] ∧ s.writable outcome then
      match writeSome outcome s.rest with
      | .error why => some { s with writer := .stopped why }
      | .ok rest => some { s with
          rest := rest
          inFlight := s.inFlight ++ s.rest.take (s.rest.length - rest.length) }
    else none
  | .writeReturns =>
    if s.writer = .writing ∧ s.rest = [] then some { s with writer := .returned } else none
  | .close =>
    if s.writer ≠ .writing ∧ s.closed = false then some { s with closed := true } else none
  | .read limit outcome =>
    if s.readerStopped = none ∧ (0 < limit → s.readable limit outcome) then
      match readall limit outcome s.inFlight with
      | .error why => some { s with readerStopped := some why }
      | .ok (ret, inFlight) => some { s with
          inFlight := inFlight
          received := s.received ++ ret
          eof := s.eof || ret.isEmpty }
    else none

/-- What each step can do. -/
inductive Effect (s : Stream) : Event → Stream → Prop
  | write {k : ℕ} (hpc : s.writer = .writing) (hpos : 0 < k) (hle : k ≤ s.rest.length) :
      Effect s (.write (.count k)) { s with
        rest := s.rest.drop k
        inFlight := s.inFlight ++ s.rest.take k }
  | writeFails {outcome : SysCount} (hpc : s.writer = .writing) (attempt : String)
      (hwrote : (Event.write outcome).wrote = false) :
      Effect s (.write outcome) { s with writer := .stopped (.throw (.exception attempt)) }
  | writeReturns (hpc : s.writer = .writing) (hrest : s.rest = []) :
      Effect s .writeReturns { s with writer := .returned }
  | close (hpc : s.writer ≠ .writing) : Effect s .close { s with closed := true }
  | read {limit k : ℕ} (hlimit : 0 < limit) (hpos : 0 < k) (hmin : k ≤ min readChunkSize limit)
      (hle : k ≤ s.inFlight.length) :
      Effect s (.read limit (.count k)) { s with
        inFlight := s.inFlight.drop k
        received := s.received ++ s.inFlight.take k }
  | readEof {limit : ℕ} (hempty : s.inFlight = []) (hclosed : s.closed) :
      Effect s (.read limit (.count 0)) { s with eof := true }
  | readFails {limit : ℕ} {outcome : SysCount} (why : Stop)
      (hwhy : why = .assertFailed ↔ limit = 0) :
      Effect s (.read limit outcome) { s with readerStopped := some why }

/-- **Every step does what `Effect` says.** -/
theorem step_effect {s s' : Stream} {e : Event} (h : step s e = some s') : Effect s e s' := by
  cases e with
  | write outcome =>
    obtain ⟨⟨hpc, hrest, hwritable⟩, h⟩ := Option.ite_none_right_eq_some.mp h
    have hpos : 0 < s.rest.length := List.length_pos_iff.mpr hrest
    unfold writeSome at h
    rw [if_pos hpos] at h
    match outcome with
    | .error =>
      obtain rfl := Option.some.inj h
      exact .writeFails hpc _ rfl
    | .count 0 =>
      obtain rfl := Option.some.inj h
      exact .writeFails hpc _ rfl
    | .count (k + 1) =>
      obtain rfl := Option.some.inj h
      have hle : k + 1 ≤ s.rest.length := by simpa [writable] using hwritable
      have htaken : s.rest.length - (s.rest.drop (k + 1)).length = k + 1 := by
        rw [List.length_drop]
        omega
      rw [htaken]
      exact .write hpc (Nat.succ_pos k) hle
  | writeReturns =>
    obtain ⟨⟨hpc, hrest⟩, h⟩ := Option.ite_none_right_eq_some.mp h
    obtain rfl := Option.some.inj h
    exact .writeReturns hpc hrest
  | close =>
    obtain ⟨⟨hpc, -⟩, h⟩ := Option.ite_none_right_eq_some.mp h
    obtain rfl := Option.some.inj h
    exact .close hpc
  | read limit outcome =>
    obtain ⟨⟨-, hreadable⟩, h⟩ := Option.ite_none_right_eq_some.mp h
    by_cases hlimit : 0 < limit
    · unfold readall at h
      rw [if_pos hlimit] at h
      match outcome with
      | .error =>
        obtain rfl := Option.some.inj h
        exact .readFails _ (iff_of_false (by simp) (by omega))
      | .count k =>
        obtain rfl := Option.some.inj h
        have hk := hreadable hlimit
        simp only [readable, Bool.and_eq_true, Bool.or_eq_true, decide_eq_true_eq, bne_iff_ne,
          List.isEmpty_iff] at hk
        obtain ⟨⟨hmin, hle⟩, hsome⟩ := hk
        rcases Nat.eq_zero_or_pos k with rfl | hpos
        · obtain ⟨hempty, hclosed⟩ := hsome.resolve_left (fun h => h rfl)
          have heof : ({ s with
              inFlight := s.inFlight.drop 0
              received := s.received ++ s.inFlight.take 0
              eof := s.eof || (s.inFlight.take 0).isEmpty } : Stream) = { s with eof := true } := by
            simp
          rw [heof]
          exact .readEof hempty hclosed
        · have heof : (s.eof || (s.inFlight.take k).isEmpty) = s.eof := by
            have hne : s.inFlight ≠ [] := by
              rintro hnil
              rw [hnil, List.length_nil] at hle
              omega
            simp [hne, hpos.ne']
          rw [heof]
          exact .read hlimit hpos hmin hle
    · unfold readall at h
      rw [if_neg hlimit] at h
      obtain rfl := Option.some.inj h
      exact .readFails _ (iff_of_true rfl (by omega))

/-! ### Reachable states -/

/-- What holds in all reachable states of the transfer of a buffer, after so many calls of `::write`
that took some bytes. -/
structure Inv (buf : ByteString) (writes : ℕ) (s : Stream) : Prop where
  bytes : s.received ++ s.inFlight ++ s.rest = buf
  writes_le : writes + s.rest.length ≤ buf.length
  returned : s.writer = .returned → s.rest = []
  stopped : ∀ why, s.writer = .stopped why → why ≠ .assertFailed
  closed : s.closed → s.writer ≠ .writing
  eof : s.eof → s.inFlight = [] ∧ s.closed

theorem Inv.start (buf : ByteString) : Inv buf 0 (start buf) := by
  constructor <;> simp [Stream.start]

theorem Inv.step {buf : ByteString} {writes : ℕ} {s s' : Stream} {e : Event} (h : Inv buf writes s)
    (heff : Effect s e s') : Inv buf (writes + e.wrote.toNat) s' := by
  obtain ⟨hbytes, hwrites, hreturned, hstopped, hclosed, heof⟩ := h
  cases heff with
  | @write k hpc hpos hle =>
    refine ⟨?_, ?_, ?_, ?_, hclosed, ?_⟩
    · show s.received ++ (s.inFlight ++ s.rest.take k) ++ s.rest.drop k = buf
      rw [← hbytes]
      simp
    · show writes + (Event.write (.count k)).wrote.toNat + (s.rest.drop k).length ≤ buf.length
      obtain ⟨j, rfl⟩ := Nat.exists_eq_succ_of_ne_zero hpos.ne'
      have hone : (Event.write (.count (j + 1))).wrote.toNat = 1 := rfl
      rw [List.length_drop, hone]
      omega
    · intro hret
      cases hpc.symm.trans hret
    · intro why hwhy
      cases hpc.symm.trans hwhy
    · intro h
      exact absurd hpc (hclosed (heof h).2)
  | writeFails hpc attempt hwrote =>
    rw [hwrote]
    refine ⟨hbytes, hwrites, fun hret => (by cases hret), ?_, fun _ hwriting => (by cases hwriting),
      heof⟩
    rintro why hwhy rfl
    cases hwhy
  | writeReturns hpc hrest =>
    exact ⟨hbytes, hwrites, fun _ => hrest, fun why hwhy => (by cases hwhy),
      fun _ hwriting => (by cases hwriting), heof⟩
  | close hpc =>
    exact ⟨hbytes, hwrites, hreturned, hstopped, fun _ => hpc, fun h => ⟨(heof h).1, rfl⟩⟩
  | @read limit k hlimit hpos hmin hle =>
    refine ⟨?_, hwrites, hreturned, hstopped, hclosed, fun h => ?_⟩
    · show s.received ++ s.inFlight.take k ++ s.inFlight.drop k ++ s.rest = buf
      rw [← hbytes]
      simp
    · rw [(heof h).1, List.length_nil] at hle
      omega
  | readEof hempty hclosed' =>
    exact ⟨hbytes, hwrites, hreturned, hstopped, hclosed, fun _ => ⟨hempty, hclosed'⟩⟩
  | readFails why hwhy => exact ⟨hbytes, hwrites, hreturned, hstopped, hclosed, heof⟩

/-- What holds in all reachable states. -/
theorem Inv.exec {buf : ByteString} {es : List Event} {s : Stream}
    (hrun : exec Stream.step (Stream.start buf) es = some s) :
    Inv buf (es.countP Event.wrote) s := by
  refine Transition.exec_induct (P := fun es s => Inv buf (es.countP Event.wrote) s) (.start buf) ?_
    es s hrun
  intro es s e s' _ ih hstep
  rw [Transition.countP_concat]
  exact ih.step (step_effect hstep)

/-- A reader asserts only that its limit is not zero. -/
theorem readerStopped_ne {buf : ByteString} {es : List Event} {s : Stream}
    (hrun : exec Stream.step (Stream.start buf) es = some s) (hes : ∀ e ∈ es, ¬ e.readsNothing) :
    s.readerStopped ≠ some .assertFailed := by
  refine Transition.exec_invariant_of (E := fun e => ¬ e.readsNothing)
    (I := fun s => s.readerStopped ≠ some .assertFailed) (by simp [Stream.start]) ?_ hrun hes
  intro s e s' he h hstep
  cases step_effect hstep with
  | @readFails limit outcome why hwhy =>
    rintro hstopped
    obtain rfl := hwhy.mp (Option.some.inj hstopped)
    exact he rfl
  | _ => exact h

/-! ### The end of a transfer -/

section Completion

variable {s : Stream}

theorem step_read {k : ℕ} (hreader : s.readerStopped = none) (hpos : 0 < k)
    (hmin : k ≤ readChunkSize) (hle : k ≤ s.inFlight.length) :
    step s (.read readChunkSize (.count k)) = some { s with
      inFlight := s.inFlight.drop k
      received := s.received ++ s.inFlight.take k } := by
  have hreadable : s.readable readChunkSize (.count k) := by
    simp [readable, hmin, hle, hpos.ne']
  have hne : s.inFlight ≠ [] := List.length_pos_iff.mp (hpos.trans_le hle)
  have heof : (s.eof || (s.inFlight.take k).isEmpty) = s.eof := by
    simp [hne, hpos.ne']
  unfold step
  dsimp only
  rw [if_pos ⟨hreader, fun _ => hreadable⟩]
  show some ({ s with
    inFlight := s.inFlight.drop k
    received := s.received ++ s.inFlight.take k
    eof := s.eof || (s.inFlight.take k).isEmpty } : Stream) = _
  rw [heof]

theorem step_readEof (hreader : s.readerStopped = none) (hempty : s.inFlight = [])
    (hclosed : s.closed) :
    step s (.read readChunkSize (.count 0)) = some { s with eof := true } := by
  have hreadable : s.readable readChunkSize (.count 0) := by
    simp [readable, hempty, hclosed]
  unfold step
  dsimp only
  rw [if_pos ⟨hreader, fun _ => hreadable⟩]
  show some ({ s with
    inFlight := s.inFlight.drop 0
    received := s.received ++ s.inFlight.take 0
    eof := s.eof || (s.inFlight.take 0).isEmpty } : Stream) = _
  simp

/-- When the other end is closed, a reader that goes on gets all that is on the way. -/
theorem exists_drain (n : ℕ) : ∀ s : Stream, s.inFlight.length ≤ n → s.closed →
    s.readerStopped = none → ∃ es s', exec step s es = some s' ∧ s'.eof ∧ s'.writer = s.writer ∧
      s'.received = s.received ++ s.inFlight := by
  induction n with
  | zero =>
    intro s hle hclosed hreader
    have hempty := List.length_eq_zero_iff.mp (Nat.le_zero.mp hle)
    refine ⟨_, _, (Transition.exec_singleton _ _).trans (step_readEof hreader hempty hclosed), rfl,
      rfl, ?_⟩
    rw [hempty, List.append_nil]
  | succ n ih =>
    intro s hle hclosed hreader
    by_cases hempty : s.inFlight = []
    · exact ih s (by simp [hempty]) hclosed hreader
    · let k := min readChunkSize s.inFlight.length
      have hpos : 0 < k := lt_min (by decide) (List.length_pos_iff.mpr hempty)
      have hstep := step_read hreader hpos (min_le_left _ _) (min_le_right _ _)
      have hless : (s.inFlight.drop k).length ≤ n := by
        rw [List.length_drop]
        omega
      obtain ⟨es, s', hrun, heof, hwriter, hreceived⟩ := ih { s with
        inFlight := s.inFlight.drop k
        received := s.received ++ s.inFlight.take k } hless hclosed hreader
      refine ⟨.read readChunkSize (.count k) :: es, s', ?_, heof, hwriter, ?_⟩
      · rw [Transition.exec_cons, hstep]
        exact hrun
      · rw [hreceived, List.append_assoc, List.take_append_drop]

/-- When `writeall` has come to its end, the reader gets the whole buffer. -/
theorem exists_exec_of_returned (hreturned : s.writer = .returned)
    (hreader : s.readerStopped = none) : ∃ es s', exec step s es = some s' ∧ s'.writer = .returned ∧
      s'.eof ∧ s'.received = s.received ++ s.inFlight := by
  by_cases hclosed : s.closed
  · obtain ⟨es, s', hrun, heof, hwriter, hreceived⟩ := exists_drain _ s le_rfl hclosed hreader
    exact ⟨es, s', hrun, hwriter.trans hreturned, heof, hreceived⟩
  · have hstep : step s .close = some { s with closed := true } :=
      if_pos ⟨by simp [hreturned], by simpa using hclosed⟩
    obtain ⟨es, s', hrun, heof, hwriter, hreceived⟩ :=
      exists_drain _ { s with closed := true } le_rfl rfl hreader
    refine ⟨.close :: es, s', ?_, hwriter.trans hreturned, heof, hreceived⟩
    rw [Transition.exec_cons, hstep]
    exact hrun

/-- `writeall` can be brought to its end by one call of `::write` that takes everything. -/
theorem exists_exec_of_writing (hwriting : s.writer = .writing) :
    ∃ es s', exec step s es = some s' ∧ s'.writer = .returned ∧
      s'.readerStopped = s.readerStopped ∧
      s'.received ++ s'.inFlight = s.received ++ s.inFlight ++ s.rest := by
  by_cases hrest : s.rest = []
  · have hstep : step s .writeReturns = some { s with writer := .returned } :=
      if_pos ⟨hwriting, hrest⟩
    refine ⟨_, _, (Transition.exec_singleton _ _).trans hstep, rfl, rfl, ?_⟩
    rw [hrest, List.append_nil]
  · obtain ⟨k, hk⟩ := Nat.exists_eq_succ_of_ne_zero (List.length_pos_iff.mpr hrest).ne'
    have hstep : step s (.write (.count (k + 1)))
        = some { s with rest := [], inFlight := s.inFlight ++ s.rest } := by
      have hwritable : s.writable (.count (k + 1)) := by simp [writable, hk]
      have hwrite : writeSome (.count (k + 1)) s.rest = .ok [] := by
        unfold writeSome
        rw [if_pos (List.length_pos_iff.mpr hrest)]
        show Except.ok (s.rest.drop (k + 1)) = _
        rw [List.drop_eq_nil_of_le hk.le]
      unfold step
      dsimp only
      rw [if_pos ⟨hwriting, hrest, hwritable⟩, hwrite]
      simp
    refine ⟨[.write (.count (k + 1)), .writeReturns],
      { s with rest := [], inFlight := s.inFlight ++ s.rest, writer := .returned }, ?_, rfl, rfl, ?_⟩
    · rw [Transition.exec_cons, hstep, Option.bind_some, Transition.exec_singleton]
      exact if_pos ⟨hwriting, rfl⟩
    · exact (List.append_assoc _ _ _).symm

/-- **The transfer can be brought to its end.** -/
theorem exists_completion (hwriter : ∀ why, s.writer ≠ .stopped why)
    (hreader : s.readerStopped = none) (hrest : s.writer = .returned → s.rest = []) :
    ∃ es s', exec step s es = some s' ∧ s'.writer = .returned ∧ s'.eof ∧
      s'.received = s.received ++ s.inFlight ++ s.rest := by
  cases hpc : s.writer with
  | stopped why => exact absurd hpc (hwriter why)
  | returned =>
    obtain ⟨es, s', hrun, hreturned, heof, hreceived⟩ := exists_exec_of_returned hpc hreader
    exact ⟨es, s', hrun, hreturned, heof, by rw [hrest hpc, List.append_nil, hreceived]⟩
  | writing =>
    obtain ⟨es, m, hrun, hreturned, hsame, hbytes⟩ := exists_exec_of_writing hpc
    obtain ⟨es', s', hrun', hreturned', heof, hreceived⟩ :=
      exists_exec_of_returned hreturned (hsame.trans hreader)
    refine ⟨es ++ es', s', ?_, hreturned', heof, hreceived.trans hbytes⟩
    exact Transition.exec_append_eq_some.mpr ⟨m, hrun, hrun'⟩

end Completion

/-- **What a reader gets of a buffer** that `writeall` writes, however the system cuts the calls.
What was read, what is on the way and what was not written yet are the buffer; there are no more
calls of `::write` that take something than bytes; the assertion of `write_some` holds, and that of
`readall` when no limit is zero.  A reader that has seen the end of file has all that was written,
and the whole buffer when `writeall` came to its end; and as long as neither has failed, the
transfer can be brought there. -/
theorem delivers {buf : ByteString} {es : List Event} {s : Stream}
    (hrun : exec step (start buf) es = some s) :
    s.received ++ s.inFlight ++ s.rest = buf ∧
    es.countP Event.wrote + s.rest.length ≤ buf.length ∧
    (∀ why, s.writer = .stopped why → why ≠ .assertFailed) ∧
    ((∀ e ∈ es, ¬ e.readsNothing) → s.readerStopped ≠ some .assertFailed) ∧
    (s.eof → s.received ++ s.rest = buf ∧ (s.writer = .returned → s.received = buf)) ∧
    ((∀ why, s.writer ≠ .stopped why) → s.readerStopped = none →
      ∃ es' s', exec step s es' = some s' ∧ s'.writer = .returned ∧ s'.eof ∧ s'.received = buf) := by
  have hinv := Inv.exec hrun
  refine ⟨hinv.bytes, hinv.writes_le, hinv.stopped, readerStopped_ne hrun, fun heof => ?_,
    fun hwriter hreader => ?_⟩
  · have hall : s.received ++ s.rest = buf := by
      have hbytes := hinv.bytes
      rwa [(hinv.eof heof).1, List.append_nil] at hbytes
    refine ⟨hall, fun hreturned => ?_⟩
    rwa [hinv.returned hreturned, List.append_nil] at hall
  · obtain ⟨es', s', hrun', hreturned, heof, hreceived⟩ :=
      exists_completion hwriter hreader hinv.returned
    exact ⟨es', s', hrun', hreturned, heof, hreceived.trans hinv.bytes⟩

/-- Three bytes in two calls of each function. -/
theorem delivers_of_three :
    ∃ s : Stream, exec step (start [1, 2, 3]) [.write (.count 2), .read 1 (.count 1),
        .write (.count 1), .writeReturns, .read 8 (.count 2), .close, .read 8 (.count 0)] = some s ∧
      s.received = [1, 2, 3] := by
  have hexec : (exec step (start [1, 2, 3]) [.write (.count 2), .read 1 (.count 1),
      .write (.count 1), .writeReturns, .read 8 (.count 2), .close, .read 8 (.count 0)]).map
      (fun s => (s.eof, s.writer)) = some (true, .returned) := by
    decide
  obtain ⟨s, hrun, hs⟩ := Option.map_eq_some_iff.mp hexec
  obtain ⟨heof, hwriter⟩ := Prod.mk.inj hs
  exact ⟨s, hrun, ((delivers hrun).2.2.2.2.1 heof).2 hwriter⟩

end Stream

end SendReceive
