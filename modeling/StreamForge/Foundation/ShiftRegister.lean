import Mathlib.Data.List.Basic
import Mathlib.Logic.Function.Iterate

/-!
# Reflected shift registers

A cyclic redundancy check keeps a remainder of `w` bits. A round moves its lowest
bit out and, if that bit was set, adds the polynomial, addition being exclusive or.
A byte is added at the low end and followed by eight rounds.

Rounds are linear (`round_xor`), so the bits of a byte can come one by one or all at
once (`feed_eq_serial`), and the rounds of a byte can be looked up in a table
(`rounds_eight`). If the highest bit of the polynomial is set a round can be undone
(`round_injective`). Both together give the detection of bursts: as long as no more
bits have been fed than the register has, what was fed can be told from the remainder,
whatever is fed behind it (`feed_burst`).
-/

namespace ShiftRegister

variable {w : ℕ} (p : BitVec w)

/-! ## Rounds -/

def round (c : BitVec w) : BitVec w := if c.getLsbD 0 then c >>> 1 ^^^ p else c >>> 1

variable {c : BitVec w} {i : ℕ} {bits : List Bool} {bs a b : List UInt8}

theorem round_of_even (h : c.getLsbD 0 = false) : round p c = c >>> 1 := by
  rw [round, h]
  rfl

/-- **A round is linear.** -/
theorem round_xor (a b : BitVec w) : round p (a ^^^ b) = round p a ^^^ round p b := by
  unfold round
  rw [BitVec.getLsbD_xor, BitVec.ushiftRight_xor_distrib]
  cases a.getLsbD 0 <;> cases b.getLsbD 0
  · rfl
  · exact BitVec.xor_assoc _ _ _
  · show a >>> 1 ^^^ b >>> 1 ^^^ p = a >>> 1 ^^^ p ^^^ b >>> 1
    ac_rfl
  · show a >>> 1 ^^^ b >>> 1 = a >>> 1 ^^^ p ^^^ (b >>> 1 ^^^ p)
    have hsort : a >>> 1 ^^^ p ^^^ (b >>> 1 ^^^ p) = a >>> 1 ^^^ b >>> 1 ^^^ (p ^^^ p) := by ac_rfl
    rw [hsort, BitVec.xor_self, BitVec.xor_zero]

theorem rounds_xor (n : ℕ) (a b : BitVec w) :
    (round p)^[n] (a ^^^ b) = (round p)^[n] a ^^^ (round p)^[n] b := by
  induction n with
  | zero => rfl
  | succ n ih =>
    rw [Function.iterate_succ_apply', Function.iterate_succ_apply',
      Function.iterate_succ_apply', ih, round_xor]

/-- Bits that are not set leave without a trace. -/
theorem rounds_of_clear {n : ℕ} (h : ∀ i < n, c.getLsbD i = false) : (round p)^[n] c = c >>> n := by
  induction n with
  | zero => simp
  | succ n ih =>
    have hlow : (c >>> n).getLsbD 0 = false := by
      rw [BitVec.getLsbD_ushiftRight]
      exact h n (Nat.lt_succ_self n)
    rw [Function.iterate_succ_apply', ih fun i hi => h i (Nat.lt_succ_of_lt hi),
      round_of_even p hlow, BitVec.shiftRight_add]

/-- **A round can be undone**: its highest bit is the one that was moved out. -/
theorem round_injective (hp : p.getLsbD (w - 1) = true) : Function.Injective (round p) := by
  have hpos : 0 < w := by
    apply Nat.pos_of_ne_zero
    rintro rfl
    rw [BitVec.getLsbD_of_ge p _ (Nat.zero_le _)] at hp
    cases hp
  have hshift : ∀ c : BitVec w, (c >>> 1).getLsbD (w - 1) = false := by
    intro c
    rw [BitVec.getLsbD_ushiftRight]
    exact BitVec.getLsbD_of_ge c _ (by omega)
  have hout : ∀ c : BitVec w, (round p c).getLsbD (w - 1) = c.getLsbD 0 := by
    intro c
    unfold round
    cases c.getLsbD 0
    · exact hshift c
    · show (c >>> 1 ^^^ p).getLsbD (w - 1) = true
      rw [BitVec.getLsbD_xor, hshift, hp]
      rfl
  intro a b hab
  have hbit : a.getLsbD 0 = b.getLsbD 0 := by rw [← hout a, ← hout b, hab]
  have hrest : a >>> 1 = b >>> 1 := by
    unfold round at hab
    rw [hbit] at hab
    cases hb : b.getLsbD 0 <;> rw [hb] at hab
    · exact hab
    · exact BitVec.xor_left_inj _ |>.mp hab
  apply BitVec.eq_of_getLsbD_eq
  intro i hi
  cases i with
  | zero => exact hbit
  | succ i =>
    have := congrArg (fun x => BitVec.getLsbD x i) hrest
    simpa [BitVec.getLsbD_ushiftRight, Nat.add_comm] using this

theorem rounds_injective (hp : p.getLsbD (w - 1) = true) (n : ℕ) :
    Function.Injective (round p)^[n] :=
  (round_injective p hp).iterate n

/-! ## Bytes -/

def low (b : UInt8) : BitVec w := b.toBitVec.setWidth w

def feed (c : BitVec w) (bs : List UInt8) : BitVec w :=
  bs.foldl (fun c b => (round p)^[8] (c ^^^ low b)) c

@[simp] theorem feed_nil (c : BitVec w) : feed p c [] = c := rfl

theorem feed_cons (c : BitVec w) (b : UInt8) (bs : List UInt8) :
    feed p c (b :: bs) = feed p ((round p)^[8] (c ^^^ low b)) bs := rfl

theorem feed_append (c : BitVec w) (a b : List UInt8) :
    feed p c (a ++ b) = feed p (feed p c a) b := List.foldl_append

theorem split_low (c : BitVec w) : c = c >>> 8 <<< 8 ^^^ (c &&& BitVec.ofNat w 255) := by
  have hmask : ∀ i, Nat.testBit 255 i = decide (i < 8) := by
    intro i
    rw [show (255 : ℕ) = 2 ^ 8 - 1 from rfl, Nat.testBit_two_pow_sub_one]
  apply BitVec.eq_of_getLsbD_eq
  intro i hi
  rw [BitVec.getLsbD_xor, BitVec.getLsbD_shiftLeft, BitVec.getLsbD_ushiftRight, BitVec.getLsbD_and,
    BitVec.getLsbD_ofNat, hmask]
  by_cases h8 : i < 8
  · simp [hi, h8]
  · simp [hi, h8, Nat.add_sub_cancel' (Nat.not_lt.mp h8)]

theorem shiftLeft_clear (c : BitVec w) : ∀ i < 8, (c <<< 8).getLsbD i = false := by
  intro i hi
  rw [BitVec.getLsbD_shiftLeft]
  simp [hi]

theorem shiftRight_shiftLeft (c : BitVec w) : c >>> 8 <<< 8 >>> 8 = c >>> 8 := by
  apply BitVec.eq_of_getLsbD_eq
  intro i hi
  rw [BitVec.getLsbD_ushiftRight, BitVec.getLsbD_shiftLeft, Nat.add_sub_cancel_left]
  by_cases hin : 8 + i < w
  · simp [hin]
  · rw [BitVec.getLsbD_ushiftRight, BitVec.getLsbD_of_ge c (8 + i) (Nat.not_lt.mp hin),
      Bool.and_false]

/-- **Eight rounds at once**: the rounds of the low byte and the rest moved down. -/
theorem rounds_eight (c : BitVec w) :
    (round p)^[8] c = c >>> 8 ^^^ (round p)^[8] (c &&& BitVec.ofNat w 255) := by
  conv_lhs => rw [split_low c]
  rw [rounds_xor, rounds_of_clear p (shiftLeft_clear _), shiftRight_shiftLeft]

/-! ## Bits -/

/-- One bit of input decides together with the one that is moved out. -/
def feedBit (c : BitVec w) (bit : Bool) : BitVec w :=
  if c.getLsbD 0 ^^ bit then c >>> 1 ^^^ p else c >>> 1

def bitsOf (b : UInt8) : List Bool := (List.range 8).map b.toBitVec.getLsbD

/-- **The register fed bit by bit.** -/
def serial (c : BitVec w) (bs : List UInt8) : BitVec w := (bs.flatMap bitsOf).foldl (feedBit p) c

def packed : List Bool → BitVec w
  | [] => 0#w
  | bit :: bits => BitVec.setWidth w (BitVec.ofBool bit) ^^^ packed bits <<< 1

theorem getLsbD_packed (bits : List Bool) (hi : i < w) :
    (packed bits : BitVec w).getLsbD i = bits.getD i false := by
  induction bits generalizing i with
  | nil => simp [packed]
  | cons bit bits ih =>
    rw [packed, BitVec.getLsbD_xor, BitVec.getLsbD_setWidth, BitVec.getLsbD_shiftLeft]
    cases i with
    | zero => simp [hi]
    | succ i =>
      rw [Nat.add_sub_cancel, ih (Nat.lt_of_succ_lt hi)]
      simp [hi]

theorem packed_bitsOf (b : UInt8) : (packed (bitsOf b) : BitVec w) = low b := by
  apply BitVec.eq_of_getLsbD_eq
  intro i hi
  rw [getLsbD_packed _ hi, low, BitVec.getLsbD_setWidth, bitsOf, List.getD_eq_getElem?_getD,
    List.getElem?_map]
  by_cases h8 : i < 8
  · simp [h8, hi]
  · rw [List.getElem?_eq_none (by simpa using h8),
      BitVec.getLsbD_of_ge b.toBitVec i (Nat.not_lt.mp h8), Bool.and_false]
    rfl

theorem feedBit_eq_round (hw : 0 < w) (c : BitVec w) (bit : Bool) :
    feedBit p c bit = round p (c ^^^ BitVec.setWidth w (BitVec.ofBool bit)) := by
  have hlow : (c ^^^ BitVec.setWidth w (BitVec.ofBool bit)).getLsbD 0 = (c.getLsbD 0 ^^ bit) := by
    rw [BitVec.getLsbD_xor, BitVec.getLsbD_setWidth]
    simp [hw]
  have hrest : (c ^^^ BitVec.setWidth w (BitVec.ofBool bit)) >>> 1 = c >>> 1 := by
    apply BitVec.eq_of_getLsbD_eq
    intro i _
    rw [BitVec.getLsbD_ushiftRight, BitVec.getLsbD_xor, BitVec.getLsbD_ushiftRight,
      BitVec.getLsbD_setWidth, BitVec.getLsbD_of_ge (BitVec.ofBool bit) (1 + i) (by omega),
      Bool.and_false, Bool.xor_false]
  rw [feedBit, round, hlow, hrest]

theorem round_packed_shiftLeft (h : bits.length < w) :
    round p (packed bits <<< 1) = packed bits := by
  rw [round_of_even p (by rw [BitVec.getLsbD_shiftLeft]; simp)]
  apply BitVec.eq_of_getLsbD_eq
  intro i hi
  rw [BitVec.getLsbD_ushiftRight, BitVec.getLsbD_shiftLeft, Nat.add_sub_cancel_left]
  by_cases hin : 1 + i < w
  · simp [hin]
  · rw [getLsbD_packed _ hi, List.getD_eq_getElem?_getD, List.getElem?_eq_none (by omega)]
    simp [hin]

/-- **Bits that fit into the register** can be added all at once. -/
theorem feedBits_eq_rounds (h : bits.length ≤ w) (c : BitVec w) :
    bits.foldl (feedBit p) c = (round p)^[bits.length] (c ^^^ packed bits) := by
  induction bits generalizing c with
  | nil => simp [packed]
  | cons bit bits ih =>
    rw [List.length_cons] at h
    rw [List.foldl_cons, ih (Nat.le_of_succ_le h), feedBit_eq_round p (by omega), packed,
      ← BitVec.xor_assoc, List.length_cons, Function.iterate_succ_apply,
      round_xor p (c ^^^ _) (packed bits <<< 1), round_packed_shiftLeft p h]

/-- **Byte by byte is bit by bit.** -/
theorem feed_eq_serial (hw : 8 ≤ w) (c : BitVec w) (bs : List UInt8) :
    feed p c bs = serial p c bs := by
  induction bs generalizing c with
  | nil => rfl
  | cons b bs ih =>
    have hlen : (bitsOf b).length = 8 := rfl
    have hbyte := feedBits_eq_rounds p (hlen.symm ▸ hw : (bitsOf b).length ≤ w) c
    rw [hlen, packed_bitsOf] at hbyte
    rw [feed_cons, ih, ← hbyte, serial, serial, List.flatMap_cons, List.foldl_append]

/-! ## Bursts -/

def word : List UInt8 → BitVec w
  | [] => 0#w
  | b :: bs => low b ^^^ word bs <<< 8

theorem getLsbD_low_of_ge (b : UInt8) (hi : 8 ≤ i) : (low b : BitVec w).getLsbD i = false := by
  rw [low, BitVec.getLsbD_setWidth, BitVec.getLsbD_of_ge b.toBitVec i hi, Bool.and_false]

theorem getLsbD_word_of_ge (hi : 8 * bs.length ≤ i) : (word bs : BitVec w).getLsbD i = false := by
  induction bs generalizing i with
  | nil => exact BitVec.getLsbD_zero
  | cons b bs ih =>
    rw [List.length_cons] at hi
    rw [word, BitVec.getLsbD_xor, getLsbD_low_of_ge b (by omega), BitVec.getLsbD_shiftLeft,
      ih (by omega), Bool.and_false]
    rfl

theorem word_shiftLeft_shiftRight {bs : List UInt8} (h : 8 * bs.length + 8 ≤ w) :
    (word bs : BitVec w) <<< 8 >>> 8 = word bs := by
  apply BitVec.eq_of_getLsbD_eq
  intro i hi
  rw [BitVec.getLsbD_ushiftRight, BitVec.getLsbD_shiftLeft]
  by_cases hin : 8 + i < w
  · simp [hin]
  · rw [getLsbD_word_of_ge (show 8 * bs.length ≤ i by omega)]
    simp [hin]

/-- **Bytes that fit into the register** can be added all at once. -/
theorem feed_eq_rounds (h : 8 * bs.length ≤ w) (c : BitVec w) :
    feed p c bs = (round p)^[8 * bs.length] (c ^^^ word bs) := by
  induction bs generalizing c with
  | nil => simp [word]
  | cons b bs ih =>
    rw [List.length_cons] at h
    have hrest : (round p)^[8] (word bs <<< 8) = word bs := by
      rw [rounds_of_clear p (shiftLeft_clear _), word_shiftLeft_shiftRight h]
    rw [feed_cons, ih (by omega), word, ← BitVec.xor_assoc, List.length_cons, Nat.mul_succ,
      Function.iterate_add_apply, rounds_xor p 8 (c ^^^ low b), hrest]

theorem low_injective (h : 8 ≤ w) : Function.Injective (low : UInt8 → BitVec w) := by
  intro a b hab
  apply UInt8.toBitVec_inj.mp
  apply BitVec.eq_of_getLsbD_eq
  intro i hi
  have hbit := congrArg (fun x => BitVec.getLsbD x i) hab
  simpa [low, BitVec.getLsbD_setWidth, show i < w by omega] using hbit

theorem word_injective (hlen : a.length = b.length) (hw : 8 * a.length ≤ w)
    (h : (word a : BitVec w) = word b) : a = b := by
  induction a generalizing b with
  | nil => exact (List.length_eq_zero_iff.mp hlen.symm).symm
  | cons x a ih =>
    cases b with
    | nil => cases hlen
    | cons y b =>
      rw [List.length_cons] at hw
      have hlen' : a.length = b.length := by simpa using hlen
      have hhead : (low x : BitVec w) = low y := by
        apply BitVec.eq_of_getLsbD_eq
        intro i hi
        by_cases h8 : i < 8
        · have hbit := congrArg (fun c => BitVec.getLsbD c i) h
          simpa [word, BitVec.getLsbD_xor, shiftLeft_clear _ i h8] using hbit
        · rw [getLsbD_low_of_ge x (by omega), getLsbD_low_of_ge y (by omega)]
      have htail : (word a : BitVec w) = word b := by
        rw [word, word, hhead] at h
        have hshifted := BitVec.xor_right_inj _ |>.mp h
        rw [← @word_shiftLeft_shiftRight w a (by omega),
          ← @word_shiftLeft_shiftRight w b (by omega), hshifted]
      rw [low_injective (by omega) hhead, ih hlen' (by omega) htail]

theorem feed_injective (hp : p.getLsbD (w - 1) = true) (bs : List UInt8) :
    Function.Injective fun c => feed p c bs := by
  induction bs with
  | nil => exact fun _ _ h => h
  | cons b bs ih =>
    intro c c' h
    have hstep := rounds_injective p hp 8 (ih h)
    exact BitVec.xor_left_inj _ |>.mp hstep

/-- **Bursts are detected**: two inputs that differ only in a stretch no longer than
the register leave different remainders. -/
theorem feed_burst (hp : p.getLsbD (w - 1) = true) (hlen : a.length = b.length)
    (hw : 8 * a.length ≤ w) (c : BitVec w) (pre post : List UInt8)
    (h : feed p c (pre ++ a ++ post) = feed p c (pre ++ b ++ post)) : a = b := by
  rw [feed_append, feed_append, feed_append, feed_append] at h
  have hmid : feed p (feed p c pre) a = feed p (feed p c pre) b := feed_injective p hp post h
  have hw' : 8 * b.length ≤ w := by rwa [← hlen]
  rw [feed_eq_rounds p hw, feed_eq_rounds p hw', hlen] at hmid
  have hword := BitVec.xor_right_inj _ |>.mp (rounds_injective p hp _ hmid)
  exact word_injective hlen hw hword

end ShiftRegister
