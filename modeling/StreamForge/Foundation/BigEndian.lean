import Mathlib.Data.List.Basic
import Mathlib.Tactic.Positivity
import Mathlib.Tactic.Ring

/-!
# Big-endian byte strings

Fixed-width big-endian encodings of naturals: `toBE w n` is the low `w` bytes
of `n`, most significant first, and `ofBE` reads any byte string back. Every
fixed-width field of a binary format is an instance at its own width, so the
two round-trip laws are proved once, for all widths.
-/

namespace BigEndian

/-- The low `w` bytes of `n`, most significant first. -/
def toBE : ℕ → ℕ → List UInt8
  | 0, _ => []
  | w + 1, n => UInt8.ofNat (n / 256 ^ w) :: toBE w n

def ofBE : List UInt8 → ℕ
  | [] => 0
  | b :: bs => b.toNat * 256 ^ bs.length + ofBE bs

@[simp] theorem length_toBE (w n : ℕ) : (toBE w n).length = w := by
  induction w with
  | zero => rfl
  | succ w ih => simp [toBE, ih]

/-- **Write then read** keeps the value modulo the width. -/
theorem ofBE_toBE (w n : ℕ) : ofBE (toBE w n) = n % 256 ^ w := by
  induction w with
  | zero => simp [toBE, ofBE, Nat.mod_one]
  | succ w ih =>
    have hsplit : n % 256 ^ (w + 1) = n % 256 ^ w + 256 ^ w * (n / 256 ^ w % 256) :=
      Nat.mod_pow_succ
    rw [toBE, ofBE, length_toBE, ih, UInt8.toNat_ofNat', hsplit]
    ring

theorem ofBE_toBE_of_lt {w n : ℕ} (h : n < 256 ^ w) : ofBE (toBE w n) = n := by
  rw [ofBE_toBE, Nat.mod_eq_of_lt h]

theorem ofBE_lt (bs : List UInt8) : ofBE bs < 256 ^ bs.length := by
  induction bs with
  | nil => simp [ofBE]
  | cons b bs ih =>
    have hb : b.toNat < 256 := b.toNat_lt
    have hmul : b.toNat * 256 ^ bs.length ≤ 255 * 256 ^ bs.length :=
      Nat.mul_le_mul_right _ (by omega)
    rw [ofBE, List.length_cons, pow_succ]
    omega

theorem ofBE_append (xs ys : List UInt8) :
    ofBE (xs ++ ys) = ofBE xs * 256 ^ ys.length + ofBE ys := by
  induction xs with
  | nil => simp [ofBE]
  | cons x xs ih =>
    rw [List.cons_append, ofBE, ofBE, ih, List.length_append, pow_add]
    ring

theorem ofBE_zeros (n : ℕ) : ofBE (List.replicate n 0) = 0 := by
  induction n with
  | zero => rfl
  | succ n ih => rw [List.replicate_succ, ofBE, ih, UInt8.toNat_zero, Nat.zero_mul]

theorem toBE_add_mul (w a n : ℕ) : toBE w (a * 256 ^ w + n) = toBE w n := by
  induction w generalizing a with
  | zero => rfl
  | succ w ih =>
    have hsplit : a * 256 ^ (w + 1) + n = a * 256 * 256 ^ w + n := by ring
    have hhead : (a * 256 * 256 ^ w + n) / 256 ^ w = a * 256 + n / 256 ^ w := by
      rw [Nat.add_comm, Nat.add_mul_div_right _ _ (by positivity), Nat.add_comm]
    rw [toBE, toBE, hsplit, ih, hhead]
    congr 1
    apply UInt8.toNat_inj.mp
    simp [UInt8.toNat_ofNat']

/-- **Read then write** gives the bytes back. -/
theorem toBE_ofBE (bs : List UInt8) : toBE bs.length (ofBE bs) = bs := by
  induction bs with
  | nil => rfl
  | cons b bs ih =>
    have hdiv : (b.toNat * 256 ^ bs.length + ofBE bs) / 256 ^ bs.length = b.toNat := by
      rw [Nat.add_comm, Nat.add_mul_div_right _ _ (by positivity), Nat.div_eq_of_lt (ofBE_lt bs),
        Nat.zero_add]
    rw [List.length_cons, toBE, ofBE, hdiv, toBE_add_mul, ih, UInt8.ofNat_toNat]

end BigEndian
