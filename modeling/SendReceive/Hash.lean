import SendReceive.Whisker

/-!
# Equality and hashing

Memories, ranges and whiskers are compared with `==` and hashed with Boost, field by field in
both cases.  A hash container needs objects that compare equal to have equal hashes.

The hashing functions are given what Boost contributes, so that they can be run with a
combination that loses nothing: what comes out then is the sequence of the values hashed, and two
objects have the same hash whatever the combination when these sequences are the same.

## Main definitions

* `Hasher` — what Boost contributes, and `Hasher.recorder`, which keeps all the values.
* `Memory.hashValue`, `MemoryRange.hashValue`, `Whisker.hashValue`, `Whisker.opEq`.

## Main results

* `Whisker.hashValue_eq_iff` — the hashes that are equal whatever the combination.
* `equality_hashes_iff` — **when equality and hashing agree**.
-/

namespace SendReceive

/-- What Boost contributes to a hash with values in `S`. -/
structure Hasher (S : Type) where
  /-- The seed zero. -/
  zero : S
  /-- The hash of an `int`. -/
  int : Int32 → S
  /-- The hash of a `double`. -/
  double : DataType → S
  /-- `boost::hash_combine`: the seed after a value with a hash. -/
  combine : S → S → S

namespace Hasher

/-- The seed after values with these hashes are combined with zero, the first one first. -/
def combineAll {S : Type} (H : Hasher S) (hashes : List S) : S := hashes.foldl H.combine H.zero

/-- A value that is hashed. -/
inductive Value where
  /-- An `int`. -/
  | int (n : Int32)
  /-- A `double`. -/
  | double (x : DataType)
  deriving DecidableEq, Repr

/-- The combination that keeps the sequence of the values. -/
def recorder : Hasher (List Value) where
  zero := []
  int n := [.int n]
  double x := [.double x]
  combine := (· ++ ·)

end Hasher

section HashValue

variable {S : Type} (H : Hasher S)

/-- `hash_value( const Memory & )`. -/
def Memory.hashValue (mem : Memory) : S :=
  H.combineAll [H.double mem.recSendEwma, H.double mem.recRecEwma, H.double mem.rttRatio,
    H.double mem.slowRecRecEwma]

/-- `hash_value( const MemoryRange & )`. -/
def MemoryRange.hashValue (mr : MemoryRange) : S :=
  H.combineAll [mr.lower.hashValue H, mr.upper.hashValue H]

/-- `hash_value( const Whisker & )`. -/
def Whisker.hashValue (whisker : Whisker) : S :=
  H.combineAll [H.int whisker.windowIncrement, H.double whisker.windowMultiple,
    H.double whisker.intersend, whisker.domain.hashValue H]

end HashValue

/-- `operator==`. -/
def Whisker.opEq (w other : Whisker) : Bool :=
  w.windowIncrement == other.windowIncrement && w.windowMultiple == other.windowMultiple
    && w.intersend == other.intersend && w.domain.opEq other.domain

/-- The values that go into the hash of a memory, in order. -/
def Memory.hashed (m : Memory) : List Hasher.Value := m.hashValue .recorder

/-- The values that go into the hash of a range, in order. -/
def MemoryRange.hashed (r : MemoryRange) : List Hasher.Value := r.hashValue .recorder

/-- The values that go into the hash of a whisker, in order. -/
def Whisker.hashed (w : Whisker) : List Hasher.Value := w.hashValue .recorder

/-! ### What is compared and what is hashed -/

/-- The memories have the same values on the axes other than `_rec_rec_ewma`. -/
def Memory.SameElsewhere (m m' : Memory) : Prop := ∀ i ≠ 1, m.field i = m'.field i

theorem Memory.hashed_eq_iff {m m' : Memory} :
    m.hashed = m'.hashed ↔ m.recRecEwma = m'.recRecEwma ∧ m.SameElsewhere m' := by
  rw [SameElsewhere, forall_axis]
  simp [hashed, hashValue, Hasher.combineAll, Hasher.recorder, field]
  tauto

/-- The hash of a memory is a matter of the values hashed. -/
theorem Memory.hashValue_eq_of_hashed {S : Type} (H : Hasher S) {m m' : Memory}
    (h : m.hashed = m'.hashed) : m.hashValue H = m'.hashValue H := by
  obtain ⟨hrec, hother⟩ := hashed_eq_iff.mp h
  have h0 : m.recSendEwma = m'.recSendEwma := hother 0 (by decide)
  have h2 : m.rttRatio = m'.rttRatio := hother 2 (by decide)
  have h3 : m.slowRecRecEwma = m'.slowRecRecEwma := hother 3 (by decide)
  rw [hashValue, hashValue, h0, hrec, h2, h3]

namespace MemoryRange

/-- The ranges have the same bounds on the axis `_rec_rec_ewma`. -/
def SameRecRec (r r' : MemoryRange) : Prop :=
  r.lower.recRecEwma = r'.lower.recRecEwma ∧ r.upper.recRecEwma = r'.upper.recRecEwma

/-- The ranges have the same bounds on the other axes. -/
def SameElsewhere (r r' : MemoryRange) : Prop :=
  r.lower.SameElsewhere r'.lower ∧ r.upper.SameElsewhere r'.upper

theorem opEq_iff {r r' : MemoryRange} : r.opEq r' ↔ r.SameElsewhere r' := by
  rw [opEq, Bool.and_eq_true, Memory.opEq_iff, Memory.opEq_iff]
  exact Iff.rfl

/-- The values of both corners are hashed. -/
theorem hashed_eq_corners {r r' : MemoryRange} :
    r.hashed = r'.hashed ↔ r.lower.hashed = r'.lower.hashed ∧ r.upper.hashed = r'.upper.hashed := by
  constructor
  · intro h
    -- a corner comes to four values
    exact List.append_inj h rfl
  · rintro ⟨hlower, hupper⟩
    show [] ++ r.lower.hashed ++ r.upper.hashed = [] ++ r'.lower.hashed ++ r'.upper.hashed
    rw [hlower, hupper]

theorem hashed_eq_iff {r r' : MemoryRange} :
    r.hashed = r'.hashed ↔ r.SameRecRec r' ∧ r.SameElsewhere r' := by
  rw [hashed_eq_corners, Memory.hashed_eq_iff, Memory.hashed_eq_iff, and_and_and_comm]
  exact Iff.rfl

theorem hashValue_eq_of_hashed {S : Type} (H : Hasher S) {r r' : MemoryRange}
    (h : r.hashed = r'.hashed) : r.hashValue H = r'.hashValue H := by
  obtain ⟨hlower, hupper⟩ := hashed_eq_corners.mp h
  rw [hashValue, hashValue, Memory.hashValue_eq_of_hashed H hlower,
    Memory.hashValue_eq_of_hashed H hupper]

end MemoryRange

namespace Whisker

/-- The whiskers have the same values in the fields that are hashed, apart from the bounds on the
axis `_rec_rec_ewma`. -/
def SameElsewhere (w w' : Whisker) : Prop :=
  w.windowIncrement = w'.windowIncrement ∧ w.windowMultiple = w'.windowMultiple ∧
    w.intersend = w'.intersend ∧ w.domain.SameElsewhere w'.domain

theorem opEq_iff {w w' : Whisker} : w.opEq w' ↔ w.SameElsewhere w' := by
  simp only [opEq, Bool.and_eq_true, beq_iff_eq, MemoryRange.opEq_iff, and_assoc]
  exact Iff.rfl

/-- The parameters of the rule and the values of its domain are hashed. -/
theorem hashed_eq_fields {w w' : Whisker} :
    w.hashed = w'.hashed ↔ w.windowIncrement = w'.windowIncrement ∧
      w.windowMultiple = w'.windowMultiple ∧ w.intersend = w'.intersend ∧
      w.domain.hashed = w'.domain.hashed := by
  show Hasher.Value.int _ :: .double _ :: .double _ :: w.domain.hashed
    = .int _ :: .double _ :: .double _ :: w'.domain.hashed ↔ _
  simp only [List.cons.injEq, Hasher.Value.int.injEq, Hasher.Value.double.injEq]

theorem hashed_eq_iff {w w' : Whisker} :
    w.hashed = w'.hashed ↔ w.domain.SameRecRec w'.domain ∧ w.SameElsewhere w' := by
  rw [hashed_eq_fields, MemoryRange.hashed_eq_iff, SameElsewhere]
  tauto

/-- **The hashes that are equal whatever the combination** are those of the same values. -/
theorem hashValue_eq_iff {w w' : Whisker} :
    (∀ (S : Type) (H : Hasher S), w.hashValue H = w'.hashValue H) ↔ w.hashed = w'.hashed := by
  constructor
  · intro h
    exact h _ .recorder
  · intro h S H
    obtain ⟨hinc, hmul, hinter, hdomain⟩ := hashed_eq_fields.mp h
    rw [hashValue, hashValue, hinc, hmul, hinter, MemoryRange.hashValue_eq_of_hashed H hdomain]

end Whisker

/-! ### When they agree -/

/-- **When equality and hashing agree**: for objects with the same values, or bounds, on the axis
`_rec_rec_ewma`, which `==` leaves out, and for objects that differ in another field that is
hashed. -/
theorem equality_hashes_iff (m m' : Memory) (r r' : MemoryRange) (w w' : Whisker) :
    ((m.opEq m' ↔ m.hashed = m'.hashed) ↔ m.recRecEwma = m'.recRecEwma ∨ ¬ m.SameElsewhere m') ∧
    ((r.opEq r' ↔ r.hashed = r'.hashed) ↔ r.SameRecRec r' ∨ ¬ r.SameElsewhere r') ∧
    ((w.opEq w' ↔ w.hashed = w'.hashed) ↔
      w.domain.SameRecRec w'.domain ∨ ¬ w.SameElsewhere w') ∧
    ((w.opEq w' → ∀ (S : Type) (H : Hasher S), w.hashValue H = w'.hashValue H) ↔
      w.domain.SameRecRec w'.domain ∨ ¬ w.SameElsewhere w') := by
  refine ⟨?_, ?_, ?_, ?_⟩
  · rw [Memory.opEq_iff, Memory.hashed_eq_iff]
    exact iff_and_self.trans imp_iff_or_not
  · rw [MemoryRange.opEq_iff, MemoryRange.hashed_eq_iff]
    exact iff_and_self.trans imp_iff_or_not
  · rw [Whisker.opEq_iff, Whisker.hashed_eq_iff]
    exact iff_and_self.trans imp_iff_or_not
  · rw [Whisker.hashValue_eq_iff, Whisker.opEq_iff, Whisker.hashed_eq_iff]
    tauto

/-- Two rules with the default action for the halves of the default domain on the axis
`_rec_rec_ewma`: they compare equal and are hashed from different values. -/
theorem equal_but_hashed_apart :
    let w := Whisker.ofDomain (.make (.ofData 0 0 0 0) maxMemory)
    let w' := Whisker.ofDomain (.make (.ofData 0 81920 0 0) maxMemory)
    w.opEq w' ∧ w.hashed ≠ w'.hashed := by
  decide +kernel

end SendReceive
