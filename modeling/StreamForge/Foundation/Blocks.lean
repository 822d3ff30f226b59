import Mathlib.Data.List.Basic

/-!
# Streams of blocks

A file that is the concatenation of the encodings of a list of items:
`xs.flatMap f`. `blockStart f xs k` is the position at which item `k` begins.
The facts below are about cutting such a file, at a block boundary
(`drop_blockStart`) or anywhere (`prefix_cases`).
-/

namespace Blocks

variable {α β : Type} (f : α → List β)

def blockStart (xs : List α) (k : ℕ) : ℕ := ((xs.take k).flatMap f).length

@[simp] theorem blockStart_zero (xs : List α) : blockStart f xs 0 = 0 := by
  simp [blockStart]

theorem blockStart_length (xs : List α) : blockStart f xs xs.length = (xs.flatMap f).length := by
  simp [blockStart]

variable {xs : List α} {k : ℕ}

theorem blockStart_succ {x : α} (h : xs[k]? = some x) :
    blockStart f xs (k + 1) = blockStart f xs k + (f x).length := by
  simp [blockStart, List.take_add_one, h]

theorem blockStart_append (h : k ≤ xs.length) (ys : List α) :
    blockStart f (xs ++ ys) k = blockStart f xs k := by
  simp [blockStart, List.take_append_of_le_length h]

theorem drop_blockStart (xs : List α) (k : ℕ) :
    (xs.flatMap f).drop (blockStart f xs k) = (xs.drop k).flatMap f := by
  have hsplit : xs.flatMap f = (xs.take k).flatMap f ++ (xs.drop k).flatMap f := by
    rw [← List.flatMap_append, List.take_append_drop]
  rw [hsplit]
  exact List.drop_left' rfl

theorem take_blockStart (xs : List α) (k : ℕ) :
    (xs.flatMap f).take (blockStart f xs k) = (xs.take k).flatMap f := by
  have hsplit : xs.flatMap f = (xs.take k).flatMap f ++ (xs.drop k).flatMap f := by
    rw [← List.flatMap_append, List.take_append_drop]
  rw [hsplit]
  exact List.take_left' rfl

theorem blockStart_le (xs : List α) (k : ℕ) : blockStart f xs k ≤ (xs.flatMap f).length := by
  have h := congrArg List.length (take_blockStart f xs k)
  rw [List.length_take] at h
  unfold blockStart at h ⊢
  omega

/-- Blocks are not empty: an item that is there starts before the end. -/
theorem blockStart_lt (hpos : ∀ x ∈ xs, 0 < (f x).length) (hk : k < xs.length) :
    blockStart f xs k < (xs.flatMap f).length := by
  have hget : xs[k]? = some xs[k] := List.getElem?_eq_getElem hk
  have hsucc := blockStart_succ f hget
  have hle := blockStart_le f xs (k + 1)
  have hx := hpos xs[k] (List.getElem_mem hk)
  omega

/-- **Any cut of the stream** is some whole items followed by a proper prefix
of the next one. -/
theorem prefix_cases {p : List β} (h : p <+: xs.flatMap f) :
    ∃ m t, m ≤ xs.length ∧ p = (xs.take m).flatMap f ++ t ∧
      (t = [] ∨ ∃ x, xs[m]? = some x ∧ t <+: f x ∧ t.length < (f x).length) := by
  induction xs generalizing p with
  | nil =>
    have hp : p = [] := by simpa using h
    exact ⟨0, [], by simp, by simp [hp], Or.inl rfl⟩
  | cons x xs ih =>
    rw [List.flatMap_cons] at h
    by_cases hlen : (f x).length ≤ p.length
    · -- the cut falls behind the first block
      have hx : f x <+: p := List.prefix_of_prefix_length_le (List.prefix_append _ _) h hlen
      obtain ⟨q, rfl⟩ := hx
      obtain ⟨m, t, hm, rfl, ht⟩ := ih ((List.prefix_append_right_inj _).mp h)
      exact ⟨m + 1, t, by simpa using hm, by simp, by simpa using ht⟩
    · have hp : p <+: f x := List.prefix_of_prefix_length_le h (List.prefix_append _ _) (by omega)
      exact ⟨0, p, by simp, by simp, Or.inr ⟨x, by simp, hp, by omega⟩⟩

end Blocks
