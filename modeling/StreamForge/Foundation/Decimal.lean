import Mathlib.Data.List.TakeWhile
import Mathlib.Data.Nat.Digits.Lemmas

/-!
# Decimal numerals

`toDecimal` prints a natural as `std::to_string` does, and `parseUnsigned`
reads one back as `std::stoul` does: blanks and a sign are skipped, the digits
end at the first other character, and the caller learns how many characters
were used. `parseUnsigned_toDecimal` says that what was printed is read back,
whatever follows it.
-/

namespace Decimal

/-- The ASCII digits of `n`, most significant first. -/
def toDecimal (n : ℕ) : List UInt8 :=
  if n = 0 then [48] else (Nat.digits 10 n).reverse.map fun d => UInt8.ofNat (48 + d)

/-! ## Parsing -/

def isDigit (b : UInt8) : Bool := 48 ≤ b && b ≤ 57

def isSpace (b : UInt8) : Bool := b == 32 || (9 ≤ b && b ≤ 13)

def ofDecimal (ds : List UInt8) : ℕ := ds.foldl (fun n d => 10 * n + (d.toNat - 48)) 0

def takeSign : List UInt8 → Bool × List UInt8
  | 45 :: rest => (true, rest)
  | 43 :: rest => (false, rest)
  | s => (false, s)

/-- A `w`-bit unsigned number in base 10 and the characters it took. `none` is
an exception: no digits, or out of range. A minus sign negates modulo `2 ^ w`. -/
def parseUnsigned (w : ℕ) (s : List UInt8) : Option (ℕ × ℕ) :=
  let (negative, rest) := takeSign (s.dropWhile isSpace)
  let digits := rest.takeWhile isDigit
  if digits.isEmpty then none
  else if 2 ^ w ≤ ofDecimal digits then none
  else
    some (if negative then (2 ^ w - ofDecimal digits) % 2 ^ w else ofDecimal digits,
      s.length - rest.length + digits.length)

/-! ## What was printed is read back -/

theorem toNat_digit {d : ℕ} (h : d < 10) : (UInt8.ofNat (48 + d)).toNat = 48 + d := by
  rw [UInt8.toNat_ofNat']
  omega

theorem isDigit_digit {d : ℕ} (h : d < 10) : isDigit (UInt8.ofNat (48 + d)) = true := by
  have hd := toNat_digit h
  have h48 : (48 : UInt8).toNat = 48 := rfl
  have h57 : (57 : UInt8).toNat = 57 := rfl
  simp only [isDigit, Bool.and_eq_true, decide_eq_true_eq, UInt8.le_iff_toNat_le]
  omega

theorem toDecimal_ne_nil (n : ℕ) : toDecimal n ≠ [] := by
  unfold toDecimal
  split
  · simp
  · simpa [Nat.digits_ne_nil_iff_ne_zero]

theorem length_toDecimal_le {n k : ℕ} (hk : 1 ≤ k) (h : n < 10 ^ k) : (toDecimal n).length ≤ k := by
  unfold toDecimal
  split
  · exact hk
  · rw [List.length_map, List.length_reverse]
    exact (Nat.digits_length_le_iff (by norm_num) n).mpr h

theorem isDigit_of_mem_toDecimal {n : ℕ} {b : UInt8} (h : b ∈ toDecimal n) : isDigit b = true := by
  unfold toDecimal at h
  split at h
  · rw [List.mem_singleton.mp h]
    decide
  · obtain ⟨d, hd, rfl⟩ := List.mem_map.mp h
    exact isDigit_digit (Nat.digits_lt_base (by norm_num) (List.mem_reverse.mp hd))

theorem ofDecimal_digits (ds : List ℕ) (h : ∀ d ∈ ds, d < 10) :
    ofDecimal (ds.reverse.map fun d => UInt8.ofNat (48 + d)) = Nat.ofDigits 10 ds := by
  induction ds with
  | nil => rfl
  | cons d ds ih =>
    have hd := toNat_digit (h d (by simp))
    have ih := ih fun x hx => h x (List.mem_cons_of_mem _ hx)
    unfold ofDecimal at ih ⊢
    rw [List.reverse_cons, List.map_append, List.foldl_append, ih, Nat.ofDigits_cons]
    simp only [List.map_cons, List.map_nil, List.foldl_cons, List.foldl_nil, hd]
    omega

theorem ofDecimal_toDecimal (n : ℕ) : ofDecimal (toDecimal n) = n := by
  unfold toDecimal
  split
  · rename_i h
    rw [h]
    rfl
  · rw [ofDecimal_digits _ fun d hd => Nat.digits_lt_base (by norm_num) hd, Nat.ofDigits_digits]

theorem ofDecimal_zeros (n : ℕ) (ds : List UInt8) :
    ofDecimal (List.replicate n 48 ++ ds) = ofDecimal ds := by
  induction n with
  | zero => rfl
  | succ n ih =>
    rw [List.replicate_succ, List.cons_append, ← ih]
    rfl

theorem isSpace_of_isDigit {b : UInt8} (h : isDigit b = true) :
    isSpace b = false ∧ b ≠ 45 ∧ b ≠ 43 := by
  simp only [isDigit, Bool.and_eq_true, decide_eq_true_eq, UInt8.le_iff_toNat_le] at h
  have h48 : (48 : UInt8).toNat = 48 := rfl
  refine ⟨?_, ?_, ?_⟩
  · have h13 : (13 : UInt8).toNat = 13 := rfl
    have h32 : b ≠ 32 := by
      rintro rfl
      exact absurd h.1 (by decide)
    simp only [isSpace, Bool.or_eq_false_iff, beq_eq_false_iff_ne, Bool.and_eq_false_iff,
      decide_eq_false_iff_not, UInt8.le_iff_toNat_le]
    exact ⟨h32, Or.inr (by omega)⟩
  · rintro rfl
    exact absurd h.1 (by decide)
  · rintro rfl
    exact absurd h.1 (by decide)

/-- **Round trip.** The number ends where the digits do. -/
theorem parseUnsigned_toDecimal {w n : ℕ} (h : n < 2 ^ w) {rest : List UInt8}
    (hrest : ∀ b ∈ rest.head?, isDigit b = false) :
    parseUnsigned w (toDecimal n ++ rest) = some (n, (toDecimal n).length) := by
  have hall : ∀ b ∈ toDecimal n, isDigit b = true := fun b hb => isDigit_of_mem_toDecimal hb
  have htake : (toDecimal n ++ rest).takeWhile isDigit = toDecimal n := by
    rw [List.takeWhile_append_of_pos hall]
    cases rest with
    | nil => simp
    | cons b rest => simp [hrest b rfl]
  have hvalue := ofDecimal_toDecimal n
  have hne := toDecimal_ne_nil n
  generalize toDecimal n = ds at *
  obtain ⟨d, ds, rfl⟩ := List.exists_cons_of_ne_nil hne
  obtain ⟨hspace, hminus, hplus⟩ := isSpace_of_isDigit (hall d (by simp))
  have hdrop : ((d :: ds) ++ rest).dropWhile isSpace = (d :: ds) ++ rest := by simp [hspace]
  have hsign : takeSign ((d :: ds) ++ rest) = (false, (d :: ds) ++ rest) := by
    unfold takeSign
    split
    · rename_i heq
      exact absurd (List.cons.inj heq).1 hminus
    · rename_i heq
      exact absurd (List.cons.inj heq).1 hplus
    · rfl
  have hlt : ¬2 ^ w ≤ n := by omega
  simp only [parseUnsigned, hdrop, hsign, htake, hvalue, List.isEmpty_cons, Bool.false_eq_true,
    if_false, hlt, Nat.sub_self, Nat.zero_add]

theorem parseUnsigned_whole {w n : ℕ} {s : List UInt8} (h : parseUnsigned w s = some (n, s.length))
    {b : UInt8} (hb : b ∈ s) : isDigit b = true ∨ isSpace b = true ∨ b = 45 ∨ b = 43 := by
  have hblank : ∀ x ∈ s, x ∈ s.dropWhile isSpace ∨ isSpace x = true := by
    intro x hx
    rw [← List.takeWhile_append_dropWhile (p := isSpace) (l := s)] at hx
    rcases List.mem_append.mp hx with hx | hx
    · exact Or.inr (List.mem_takeWhile_imp hx)
    · exact Or.inl hx
  have hsign : ∀ t : List UInt8, (takeSign t).2.length ≤ t.length ∧
      ∀ x ∈ t, x ∈ (takeSign t).2 ∨ x = 45 ∨ x = 43 := by
    intro t
    unfold takeSign
    split <;> simp +contextual
  set rest := (takeSign (s.dropWhile isSpace)).2 with hrest
  have hshort : rest.length ≤ s.length := (hsign _).1.trans (List.dropWhile_suffix _).length_le
  -- all characters are used only if the digits reach the end
  have hdigits : rest.takeWhile isDigit = rest := by
    unfold parseUnsigned at h
    simp only at h
    split at h
    · cases h
    · split at h
      · cases h
      · have hused := (Prod.mk.inj (Option.some.inj h)).2
        have hle := (List.takeWhile_prefix isDigit (l := rest)).length_le
        rw [← hrest] at hused
        exact (List.takeWhile_prefix isDigit).eq_of_length (by omega)
  rcases hblank b hb with hb | hb
  · rcases (hsign _).2 b hb with hb | hb
    · rw [← hrest, ← hdigits] at hb
      exact Or.inl (List.mem_takeWhile_imp hb)
    · exact Or.inr (Or.inr hb)
  · exact Or.inr (Or.inl hb)

end Decimal
