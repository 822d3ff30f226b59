import Mathlib.Data.List.Basic

/-!
# Binary search for an upper bound

The halving loop of `std::upper_bound` over a list: `upperBound p xs` is the
first index at which `p` holds, found by bisection. The bisection is only
meaningful when `p` is monotone along the list; the specification
`upperBound_spec` is stated for exactly those lists.
-/

namespace BinarySearch

variable {α : Type}

/-- The loop: `first` and `len` delimit the part of the list still undecided.
Each round at least halves `len`, so `len` itself is enough fuel. -/
def upperBoundLoop (p : α → Bool) (xs : List α) : ℕ → ℕ → ℕ → ℕ
  | 0, first, _ => first
  | fuel + 1, first, len =>
    if len = 0 then first
    else
      let half := len / 2
      let middle := first + half
      match xs[middle]? with
      | none => first
      | some x =>
        if p x then upperBoundLoop p xs fuel first half
        else upperBoundLoop p xs fuel (middle + 1) (len - half - 1)

def upperBound (p : α → Bool) (xs : List α) : ℕ :=
  upperBoundLoop p xs xs.length 0 xs.length

/-- Once `p` holds at an index it holds at every later one. -/
def Monotone (p : α → Bool) (xs : List α) : Prop :=
  xs.Pairwise fun x y => p x = true → p y = true

/-- What the loop maintains: everything before `first` fails `p`, everything
from `first + len` on satisfies it. -/
theorem upperBoundLoop_spec {p : α → Bool} {xs : List α} (hmono : Monotone p xs) :
    ∀ fuel first len, len ≤ fuel → first + len ≤ xs.length →
      (∀ i x, i < first → xs[i]? = some x → p x = false) →
      (∀ i x, first + len ≤ i → xs[i]? = some x → p x = true) →
      upperBoundLoop p xs fuel first len ≤ xs.length ∧
      (∀ i x, i < upperBoundLoop p xs fuel first len → xs[i]? = some x → p x = false) ∧
      (∀ i x, upperBoundLoop p xs fuel first len ≤ i → xs[i]? = some x → p x = true) := by
  intro fuel
  induction fuel with
  | zero =>
    intro first len hlen hbound hlo hhi
    obtain rfl : len = 0 := by omega
    exact ⟨hbound, hlo, hhi⟩
  | succ fuel ih =>
    intro first len hlen hbound hlo hhi
    by_cases hzero : len = 0
    · subst hzero
      simpa [upperBoundLoop] using ⟨hbound, hlo, hhi⟩
    · have hmid : first + len / 2 < xs.length := by omega
      have hget : xs[first + len / 2]? = some (xs[first + len / 2]) := List.getElem?_eq_getElem hmid
      rw [upperBoundLoop, if_neg hzero]
      simp only [hget]
      by_cases hp : p (xs[first + len / 2]) = true
      · rw [if_pos hp]
        apply ih first (len / 2) (by omega) (by omega) hlo
        intro i x hi hx
        rcases Nat.eq_or_lt_of_le hi with heq | hlt
        · subst heq
          rw [hget] at hx
          exact Option.some.inj hx ▸ hp
        · obtain ⟨hil, rfl⟩ := List.getElem?_eq_some_iff.mp hx
          exact List.pairwise_iff_getElem.mp hmono _ _ hmid hil hlt hp
      · rw [if_neg hp]
        apply ih _ _ (by omega) (by omega)
        · intro i x hi hx
          obtain ⟨hil, rfl⟩ := List.getElem?_eq_some_iff.mp hx
          rcases Nat.eq_or_lt_of_le (Nat.lt_succ_iff.mp hi) with heq | hlt
          · subst heq
            simpa using hp
          · by_contra hne
            exact hp (List.pairwise_iff_getElem.mp hmono _ _ hil hmid hlt
              (by simpa using hne))
        · intro i x hi hx
          exact hhi i x (by omega) hx

/-- **The bisection finds the boundary.** -/
theorem upperBound_spec {p : α → Bool} {xs : List α} (hmono : Monotone p xs) :
    upperBound p xs ≤ xs.length ∧
    (∀ i x, i < upperBound p xs → xs[i]? = some x → p x = false) ∧
    (∀ i x, upperBound p xs ≤ i → xs[i]? = some x → p x = true) := by
  apply upperBoundLoop_spec hmono xs.length 0 xs.length (Nat.le_refl _) (by omega)
  · intro i x hi
    omega
  · intro i x hi hx
    obtain ⟨hil, -⟩ := List.getElem?_eq_some_iff.mp hx
    omega

end BinarySearch
