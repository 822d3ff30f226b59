import Mathlib.Data.List.Basic
import Mathlib.Tactic.Common

/-!
# Incremental scanners

A stream arrives in pieces, and its items are taken off the front as soon as they
are complete. A `Scanner` says what is at the front of the part that has arrived:
an item, nothing complete yet, or something that can never become an item. Its
laws say that an answer does not change when more of the stream arrives, and
that an item takes something away.

From the laws it follows that the items of a stream do not depend on the pieces.
`Consumed` is the invariant of anything that takes items off a buffer, with one
rule for a new piece and one for an item that is taken.
-/

namespace Incremental

inductive Next (α β ε : Type) where
  | item (x : β) (rest : List α)
  | more
  | stop (e : ε)

structure Scanner (α β ε : Type) where
  next : List α → Next α β ε
  shorter {xs rest : List α} {x : β} : next xs = .item x rest → rest.length < xs.length
  item_append {xs rest : List α} {x : β} (ys : List α) :
    next xs = .item x rest → next (xs ++ ys) = .item x (rest ++ ys)
  stop_append {xs : List α} {e : ε} (ys : List α) : next xs = .stop e → next (xs ++ ys) = .stop e

namespace Scanner

variable {α β ε : Type}

/-- The items of a stream in their order, and what is left behind them. -/
def scan (s : Scanner α β ε) (xs : List α) : List β × List α :=
  match _h : s.next xs with
  | .item x rest => (x :: (s.scan rest).1, (s.scan rest).2)
  | .more => ([], xs)
  | .stop _ => ([], xs)
termination_by xs.length
decreasing_by all_goals exact s.shorter _h

def items (s : Scanner α β ε) (xs : List α) : List β := (s.scan xs).1
def left (s : Scanner α β ε) (xs : List α) : List α := (s.scan xs).2

variable {s : Scanner α β ε} {xs rest : List α} {x : β} {e : ε}

theorem scan_item (h : s.next xs = .item x rest) :
    s.scan xs = (x :: (s.scan rest).1, (s.scan rest).2) := by
  rw [scan]
  split
  · rename_i x' rest' h'
    rw [h] at h'
    cases h'
    rfl
  · rename_i h'
    rw [h] at h'
    cases h'
  · rename_i h'
    rw [h] at h'
    cases h'

theorem scan_more (h : s.next xs = .more) : s.scan xs = ([], xs) := by
  rw [scan]
  split
  · rename_i h'
    rw [h] at h'
    cases h'
  · rfl
  · rfl

theorem scan_stop (h : s.next xs = .stop e) : s.scan xs = ([], xs) := by
  rw [scan]
  split
  · rename_i h'
    rw [h] at h'
    cases h'
  · rfl
  · rfl

theorem items_item (h : s.next xs = .item x rest) : s.items xs = x :: s.items rest := by
  unfold items
  rw [scan_item h]

theorem left_item (h : s.next xs = .item x rest) : s.left xs = s.left rest := by
  unfold left
  rw [scan_item h]

/-- A stream without an item at its front is left as it is. -/
theorem scan_of_no_item (h : ∀ x rest, s.next xs ≠ .item x rest) : s.scan xs = ([], xs) := by
  cases hnext : s.next xs with
  | item x rest => exact absurd hnext (h x rest)
  | more => exact scan_more hnext
  | stop e => exact scan_stop hnext

/-- **The items of a longer stream** are those of its first part, and then those
of what the first part leaves with the rest behind it. -/
theorem scan_append (xs ys : List α) : s.scan (xs ++ ys) =
    (s.items xs ++ s.items (s.left xs ++ ys), s.left (s.left xs ++ ys)) := by
  cases hnext : s.next xs with
  | item x rest =>
    rw [scan_item (s.item_append ys hnext), items_item hnext, left_item hnext, scan_append rest ys]
    rfl
  | more =>
    have hscan := scan_more hnext
    simp [items, left, hscan]
  | stop e =>
    have hscan := scan_stop hnext
    simp [items, left, hscan]
termination_by xs.length
decreasing_by exact s.shorter hnext

theorem items_append (xs ys : List α) :
    s.items (xs ++ ys) = s.items xs ++ s.items (s.left xs ++ ys) := by
  conv_lhs => rw [items, scan_append]

theorem left_append (xs ys : List α) : s.left (xs ++ ys) = s.left (s.left xs ++ ys) := by
  conv_lhs => rw [left, scan_append]

theorem next_left (xs : List α) (x : β) (rest : List α) : s.next (s.left xs) ≠ .item x rest := by
  cases hnext : s.next xs with
  | item y ys =>
    rw [left_item hnext]
    exact next_left ys x rest
  | more =>
    have hscan := scan_more hnext
    simp [left, hscan, hnext]
  | stop e =>
    have hscan := scan_stop hnext
    simp [left, hscan, hnext]
termination_by xs.length
decreasing_by exact s.shorter hnext

theorem scan_left (xs : List α) : s.scan (s.left xs) = ([], s.left xs) :=
  scan_of_no_item (next_left xs)

section Pieces

variable {piece : β → List α}

theorem pieces_append_left
    (hpiece : ∀ {xs x rest}, s.next xs = .item x rest → xs = piece x ++ rest) (xs : List α) :
    (s.items xs).flatMap piece ++ s.left xs = xs := by
  cases hnext : s.next xs with
  | item x rest =>
    have ih := pieces_append_left hpiece rest
    rw [items_item hnext, left_item hnext, List.flatMap_cons, List.append_assoc, ih]
    exact (hpiece hnext).symm
  | more =>
    have hscan := scan_more hnext
    simp [items, left, hscan]
  | stop e =>
    have hscan := scan_stop hnext
    simp [items, left, hscan]
termination_by xs.length
decreasing_by exact s.shorter hnext

theorem scan_pieces {bs : List β} (h : ∀ x ∈ bs, s.next (piece x) = .item x []) :
    s.scan (bs.flatMap piece) = (bs, []) := by
  induction bs with
  | nil =>
    refine scan_of_no_item ?_
    intro x rest hitem
    exact Nat.not_lt_zero _ (s.shorter hitem)
  | cons x bs ih =>
    have hnext := s.item_append (bs.flatMap piece) (h x (by simp))
    rw [List.flatMap_cons, scan_item hnext, List.nil_append,
      ih fun y hy => h y (List.mem_cons_of_mem _ hy)]

/-- **The greedy parse is the longest**: any beginning of the stream that is made
of whole items is a beginning of what the scan consumed. -/
theorem pieces_prefix_items {bs : List β} (h : ∀ x ∈ bs, s.next (piece x) = .item x [])
    {ys : List α} (hxs : xs = bs.flatMap piece ++ ys) : s.items xs = bs ++ s.items ys := by
  have hscan := scan_pieces h
  rw [hxs, items_append, items, left, hscan, List.nil_append]

end Pieces

/-! ## Taking items off a buffer -/

/-- **The invariant of a consumer**: of the stream `arrived`, the items `taken`
have been taken off the front and `buffered` is what follows them. -/
structure Consumed (s : Scanner α β ε) (arrived : List α) (taken : List β) (buffered : List α) :
    Prop where
  items_eq : s.items arrived = taken ++ s.items buffered
  left_eq : s.left arrived = s.left buffered

variable {arrived buffered : List α} {taken : List β}

theorem consumed_nil (s : Scanner α β ε) : Consumed s [] [] [] := ⟨rfl, rfl⟩

theorem Consumed.arrive (h : Consumed s arrived taken buffered) (piece : List α) :
    Consumed s (arrived ++ piece) taken (buffered ++ piece) where
  items_eq := by
    rw [items_append arrived, items_append buffered, h.items_eq, h.left_eq, List.append_assoc]
  left_eq := by
    rw [left_append arrived, left_append buffered, h.left_eq]

theorem Consumed.take (h : Consumed s arrived taken buffered)
    (hnext : s.next buffered = .item x rest) :
    Consumed s arrived (taken ++ [x]) rest where
  items_eq := by
    rw [h.items_eq, items_item hnext, List.append_assoc]
    rfl
  left_eq := by
    rw [h.left_eq, left_item hnext]

theorem Consumed.done (h : Consumed s arrived taken buffered)
    (hnext : ∀ x rest, s.next buffered ≠ .item x rest) :
    s.items arrived = taken ∧ s.left arrived = buffered := by
  have hscan := scan_of_no_item hnext
  refine ⟨?_, ?_⟩
  · rw [h.items_eq, items, hscan, List.append_nil]
  · rw [h.left_eq, left, hscan]

end Scanner

end Incremental
