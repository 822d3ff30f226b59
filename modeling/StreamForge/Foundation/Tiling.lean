import Mathlib.Algebra.BigOperators.Group.List.Basic
import Mathlib.Algebra.Ring.Nat

/-!
# Ranges laid end to end

A range is a first number and a count. `Tiles start rs stop` says that the ranges
`rs` cover the numbers from `start` up to `stop`, each of them once and in order.
-/

namespace Tiling

def Tiles : ℕ → List (ℕ × ℕ) → ℕ → Prop
  | start, [], stop => start = stop
  | start, r :: rs, stop => r.1 = start ∧ Tiles (start + r.2) rs stop

variable {start stop : ℕ} {rs : List (ℕ × ℕ)}

theorem Tiles.append {mid : ℕ} {rs' : List (ℕ × ℕ)} (h : Tiles start rs mid)
    (h' : Tiles mid rs' stop) : Tiles start (rs ++ rs') stop := by
  induction rs generalizing start with
  | nil =>
    cases h
    exact h'
  | cons r rs ih => exact ⟨h.1, ih h.2⟩

theorem Tiles.split {pre post : List (ℕ × ℕ)} {r : ℕ × ℕ}
    (h : Tiles start (pre ++ r :: post) stop) :
    Tiles start pre r.1 ∧ Tiles (r.1 + r.2) post stop := by
  induction pre generalizing start with
  | nil =>
    obtain ⟨hbase, hrest⟩ := h
    exact ⟨hbase.symm, hbase ▸ hrest⟩
  | cons q pre ih =>
    obtain ⟨hfirst, hlast⟩ := ih h.2
    exact ⟨⟨h.1, hfirst⟩, hlast⟩

theorem Tiles.stop_eq (h : Tiles start rs stop) : stop = start + (rs.map Prod.snd).sum := by
  induction rs generalizing start with
  | nil => exact h.symm
  | cons r rs ih =>
    rw [ih h.2, List.map_cons, List.sum_cons, Nat.add_assoc]

theorem Tiles.base_ge (h : Tiles start rs stop) : ∀ r ∈ rs, start ≤ r.1 := by
  intro r hr
  obtain ⟨pre, post, rfl⟩ := List.append_of_mem hr
  rw [h.split.1.stop_eq]
  exact Nat.le_add_right _ _

/-- **No number is covered twice.** -/
theorem Tiles.pairwise (h : Tiles start rs stop) : rs.Pairwise fun r r' => r.1 + r.2 ≤ r'.1 := by
  induction rs generalizing start with
  | nil => exact .nil
  | cons r rs ih =>
    refine .cons ?_ (ih h.2)
    intro r' hr'
    rw [h.1]
    exact h.2.base_ge r' hr'

end Tiling
