import Mathlib.Data.Nat.Basic
import Mathlib.Tactic.Positivity
import Mathlib.Tactic.Ring

/-!
# Big-endian byte strings

The fixed-width big-endian encoding of the natural numbers below `256 ^ w`: the
most significant byte comes first.  `toBE w` and `ofBE` are inverse to one
another between the numbers below `256 ^ w` and the byte strings of length `w`.

* `toBE`, `ofBE` — the two directions.
* `ofBE_toBE`, `toBE_ofBE` — the round trips.
-/

namespace BigEndian

/-- The `w` big-endian bytes of `n`; what is above `256 ^ w` is dropped. -/
def toBE : ℕ → ℕ → List UInt8
  | 0, _ => []
  | w + 1, n => UInt8.ofNat (n / 256 ^ w) :: toBE w n

/-- The number a big-endian byte string stands for. -/
def ofBE : List UInt8 → ℕ
  | [] => 0
  | b :: bs => b.toNat * 256 ^ bs.length + ofBE bs

@[simp] theorem toBE_zero (n : ℕ) : toBE 0 n = [] := rfl

@[simp] theorem toBE_succ (w n : ℕ) :
    toBE (w + 1) n = UInt8.ofNat (n / 256 ^ w) :: toBE w n := rfl

@[simp] theorem ofBE_nil : ofBE [] = 0 := rfl

@[simp] theorem ofBE_cons (b : UInt8) (bs : List UInt8) :
    ofBE (b :: bs) = b.toNat * 256 ^ bs.length + ofBE bs := rfl

@[simp] theorem length_toBE (w n : ℕ) : (toBE w n).length = w := by
  induction w with
  | zero => rfl
  | succ w ih => rw [toBE_succ, List.length_cons, ih]

theorem ofBE_lt (bs : List UInt8) : ofBE bs < 256 ^ bs.length := by
  induction bs with
  | nil => simp
  | cons b bs ih =>
    have hb : b.toNat < 256 := b.toNat_lt
    calc ofBE (b :: bs) = b.toNat * 256 ^ bs.length + ofBE bs := rfl
      _ < b.toNat * 256 ^ bs.length + 256 ^ bs.length := by omega
      _ = (b.toNat + 1) * 256 ^ bs.length := by ring
      _ ≤ 256 * 256 ^ bs.length := Nat.mul_le_mul_right _ hb
      _ = 256 ^ (b :: bs).length := by rw [List.length_cons, pow_succ]; ring

/-- Decoding an encoded number keeps its `w` low bytes. -/
theorem ofBE_toBE (w n : ℕ) : ofBE (toBE w n) = n % 256 ^ w := by
  induction w with
  | zero => simp [Nat.mod_one]
  | succ w ih =>
    have hhead : (UInt8.ofNat (n / 256 ^ w)).toNat = n / 256 ^ w % 256 := UInt8.toNat_ofNat'
    rw [toBE_succ, ofBE_cons, ih, length_toBE, hhead, pow_succ, Nat.mod_mul]
    ring

/-- Only the `w` low bytes of a number are encoded. -/
theorem toBE_mul_add (w a n : ℕ) : toBE w (a * 256 ^ w + n) = toBE w n := by
  induction w generalizing a with
  | zero => rfl
  | succ w ih =>
    have hsplit : a * 256 ^ (w + 1) + n = (a * 256) * 256 ^ w + n := by ring
    have hdiv : ((a * 256) * 256 ^ w + n) / 256 ^ w = 256 * a + n / 256 ^ w := by
      rw [Nat.add_comm, Nat.add_mul_div_right _ _ (by positivity)]
      ring
    have hhead : UInt8.ofNat (256 * a + n / 256 ^ w) = UInt8.ofNat (n / 256 ^ w) := by
      apply UInt8.toNat_inj.mp
      rw [UInt8.toNat_ofNat', UInt8.toNat_ofNat']
      omega
    rw [hsplit, toBE_succ, toBE_succ, hdiv, hhead, ih]

/-- Encoding a decoded byte string gives it back. -/
theorem toBE_ofBE (bs : List UInt8) : toBE bs.length (ofBE bs) = bs := by
  induction bs with
  | nil => rfl
  | cons b bs ih =>
    have hdiv : (b.toNat * 256 ^ bs.length + ofBE bs) / 256 ^ bs.length = b.toNat := by
      rw [Nat.add_comm, Nat.add_mul_div_right _ _ (by positivity),
        Nat.div_eq_of_lt (ofBE_lt bs), Nat.zero_add]
    rw [List.length_cons, ofBE_cons, toBE_succ, hdiv, toBE_mul_add, ih, UInt8.ofNat_toNat]

end BigEndian
