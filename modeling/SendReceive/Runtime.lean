import Mathlib.Algebra.Order.Field.Rat
import Mathlib.Data.Rat.Floor

/-!
# What the sources take from C++ and from the system

The client and the server end a computation early in several ways: an object is
thrown, an assertion fails, `exit` is called.  A `Stop` says which, and fallible
functions of the sources return in `Except Stop`.

Doubles are taken as exact rationals, so the only thing left of the conversion of
a double to an integer type is the truncation, and the values for which C++
leaves the result undefined.

## Main definitions

* `Thrown`, `Stop` — how a computation ends.
* `Clock`, `timestamp` — the clock readings a computation consumes.
* `toInt`, `toUInt64` — the conversions from `double`.
* `Platform` — what is not in the sources: a constant of the compiler and the
  value of Boost's accumulators.
-/

namespace SendReceive

/-- `DataType`, that is `double`. -/
abbrev DataType := ℚ

/-- A `std::string` of bytes. -/
abbrev ByteString := List UInt8

/-- The object a `throw` raises. -/
inductive Thrown where
  /-- An object of the class `Exception`: what was attempted. -/
  | exception (attempt : String)
  /-- A `std::string`. -/
  | string (what : String)
  /-- A `std::out_of_range` of the standard library. -/
  | outOfRange
  deriving DecidableEq, Repr

/-- Why a computation did not come to its end. -/
inductive Stop where
  /-- An object was thrown. -/
  | throw (e : Thrown)
  /-- An `assert` failed: `abort()`. -/
  | assertFailed
  /-- `exit( status )` was called. -/
  | exit (status : ℕ)
  /-- C++ gives the operation no meaning. -/
  | undefined
  /-- It waits for a reading of the clock that has not come yet. -/
  | clock
  deriving DecidableEq, Repr

/-! ### Sequencing -/

section Sequencing

variable {ε α β : Type}

@[simp] theorem ok_bind (a : α) (f : α → Except ε β) : (Except.ok a >>= f) = f a := rfl

@[simp] theorem error_bind (e : ε) (f : α → Except ε β) :
    ((Except.error e : Except ε α) >>= f) = .error e := rfl

/-- A sequence succeeds when both its parts do. -/
theorem bind_eq_ok {x : Except ε α} {f : α → Except ε β} {b : β} :
    (x >>= f) = .ok b ↔ ∃ a, x = .ok a ∧ f a = .ok b := by
  cases x with
  | error e => simp
  | ok a => simp

/-- A sequence ends early when one of its parts does. -/
theorem bind_eq_error {x : Except ε α} {f : α → Except ε β} {e : ε} :
    (x >>= f) = .error e ↔ x = .error e ∨ ∃ a, x = .ok a ∧ f a = .error e := by
  cases x <;> simp

/-- A sequence does not end in a way in which neither of its parts ends. -/
theorem bind_ne_error {x : Except ε α} {f : α → Except ε β} {e : ε} (hx : x ≠ .error e)
    (hf : ∀ a, x = .ok a → f a ≠ .error e) : (x >>= f) ≠ .error e := by
  cases x with
  | error e' => exact fun h => hx (congrArg Except.error (Except.error.inj h))
  | ok a => exact hf a rfl

/-- Changing the result of a computation does not change how it ends. -/
theorem map_eq_ok {x : Except ε α} {f : α → β} {b : β} :
    x.map f = .ok b ↔ ∃ a, x = .ok a ∧ f a = b := by
  cases x with
  | error e => simp [Except.map]
  | ok a => simp [Except.map]

theorem map_ne_error {x : Except ε α} {f : α → β} {e : ε} (h : x ≠ .error e) :
    x.map f ≠ .error e := by
  cases x with
  | error e' => exact fun h' => h (congrArg Except.error (Except.error.inj h'))
  | ok a => simp [Except.map]

/-- A loop over a longer list. -/
theorem foldlM_concat (f : β → α → Except ε β) (b : β) (l : List α) (a : α) :
    (l ++ [a]).foldlM f b = l.foldlM f b >>= fun b => f b a := by
  rw [List.foldlM_append]
  cases l.foldlM f b with
  | error e => rfl
  | ok b' =>
    show (f b' a >>= fun b'' => Except.ok b'') = f b' a
    cases f b' a <;> rfl

/-- Running a computation for each element of a list when none of them stops. -/
theorem mapM_eq_ok {f : α → Except ε β} {g : α → β} :
    ∀ {l : List α}, (∀ a ∈ l, f a = .ok (g a)) → l.mapM f = .ok (l.map g) := by
  intro l
  induction l with
  | nil => intro _; rfl
  | cons a l ih =>
    intro h
    rw [List.mapM_cons, h a List.mem_cons_self, ok_bind,
      ih fun b hb => h b (List.mem_cons_of_mem _ hb), ok_bind]
    rfl

end Sequencing

/-! ### The clock -/

/-- The readings `timestamp()` is going to return, in milliseconds. -/
abbrev Clock := List UInt64

/-- `timestamp()`: the next reading, and the readings that are left. -/
def timestamp : Clock → Except Stop (UInt64 × Clock)
  | [] => .error .clock
  | now :: clock => .ok (now, clock)

@[simp] theorem timestamp_cons (now : UInt64) (clock : Clock) :
    timestamp (now :: clock) = .ok (now, clock) := rfl

/-! ### Conversions of doubles -/

/-- The fraction is dropped, towards zero. -/
def truncate (x : DataType) : ℤ := x.num.tdiv x.den

/-- `int( x )`. -/
def toInt (x : DataType) : Except Stop ℤ :=
  if -2 ^ 31 ≤ truncate x ∧ truncate x < 2 ^ 31 then .ok (truncate x) else .error .undefined

/-- The conversion of a double to `uint64_t`. -/
def toUInt64 (x : DataType) : Except Stop UInt64 :=
  if 0 ≤ truncate x ∧ truncate x < 2 ^ 64 then .ok (UInt64.ofNat (truncate x).toNat)
  else .error .undefined

theorem truncate_of_nonneg {x : DataType} (h : 0 ≤ x) : truncate x = ⌊x⌋ := by
  rw [truncate, Rat.floor_def', Int.tdiv_eq_ediv_of_nonneg (Rat.num_nonneg.mpr h)]

/-- A number from `n` on is truncated to `n` or more. -/
theorem le_truncate {x : DataType} {n : ℤ} (hn : 0 ≤ n) (h : (n : DataType) ≤ x) :
    n ≤ truncate x := by
  have hx : (0 : DataType) ≤ x := le_trans (by exact_mod_cast hn) h
  rw [truncate_of_nonneg hx]
  exact Int.le_floor.mpr h

theorem truncate_neg (x : DataType) : truncate (-x) = -truncate x := by
  rw [truncate, truncate, Rat.neg_num, Rat.neg_den, Int.neg_tdiv]

theorem truncate_of_nonpos {x : DataType} (h : x ≤ 0) : truncate x = ⌈x⌉ := by
  have hneg := truncate_of_nonneg (neg_nonneg.mpr h)
  rw [truncate_neg, Int.floor_neg] at hneg
  exact neg_inj.mp hneg

/-- The truncation of a number is below a positive bound when the number is. -/
theorem truncate_lt_iff {x : DataType} {n : ℤ} (hn : 0 < n) : truncate x < n ↔ x < n := by
  rcases le_total 0 x with hx | hx
  · rw [truncate_of_nonneg hx]
    exact Int.floor_lt
  · have hn' : (0 : DataType) < n := by exact_mod_cast hn
    have hceil : ⌈x⌉ ≤ 0 := Int.ceil_le.mpr (by simpa using hx)
    rw [truncate_of_nonpos hx]
    exact iff_of_true (lt_of_le_of_lt hceil hn) (lt_of_le_of_lt hx hn')

/-- It is above a negative bound when the number is above the next one. -/
theorem neg_le_truncate_iff {x : DataType} {n : ℤ} (hn : 0 ≤ n) :
    -n ≤ truncate x ↔ -(n + 1 : DataType) < x := by
  have hlt := truncate_lt_iff (x := -x) (n := n + 1) (by omega)
  rw [truncate_neg] at hlt
  push_cast at hlt
  rw [neg_lt, ← hlt]
  omega

/-- Truncation keeps the order. -/
theorem truncate_mono {x y : DataType} (hxy : x ≤ y) : truncate x ≤ truncate y := by
  rcases le_total 0 x with hx | hx
  · rw [truncate_of_nonneg hx, truncate_of_nonneg (hx.trans hxy)]
    exact Int.floor_mono hxy
  · rcases le_total 0 y with hy | hy
    · rw [truncate_of_nonpos hx, truncate_of_nonneg hy]
      exact le_trans (Int.ceil_le.mpr (by simpa using hx)) (Int.floor_nonneg.mpr hy)
    · rw [truncate_of_nonpos hx, truncate_of_nonpos hy]
      exact Int.ceil_mono hxy

/-- `max` in `uint64_t`. -/
theorem zero_max (a : UInt64) : max 0 a = a := if_pos (UInt64.zero_le)

/-- The values of an `unsigned int` as an `int`. -/
theorem toInt_toInt32 (u : UInt32) :
    u.toInt32.toInt = if u.toNat < 2 ^ 31 then (u.toNat : ℤ) else u.toNat - 2 ^ 32 := by
  have h : u.toInt32.toInt = u.toBitVec.toInt := rfl
  rw [h, BitVec.toInt_eq_toNat_cond]
  show (if 2 * u.toNat < 2 ^ 32 then _ else _) = _
  split <;> split <;> first | rfl | omega

/-! ### The platform -/

/-- The samples an accumulator of Boost has received, oldest first.  The sources ask an
accumulator for its median only, and this is a function of the samples. -/
abbrev Accumulator := List DataType

/-- What is not in the sources. -/
class Platform where
  /-- `sizeof( std::string )`, a constant of the compiler. -/
  sizeofString : UInt64
  /-- `median( acc )` of Boost, for an accumulator that received these samples. -/
  median : Accumulator → DataType

/-- The platform the sources were built on: the `std::string` of GCC 4.8 is one pointer, and the
estimator of Boost answers with the third of its first five samples, which it sorts when the
fifth has come.  It is only ever evaluated on that many samples. -/
@[reducible] def gcc48 : Platform where
  sizeofString := 8
  median samples :=
    if samples.length < 5 then samples.getD 2 0
    else ((samples.take 5).mergeSort (· ≤ ·)).getD 2 0

end SendReceive
