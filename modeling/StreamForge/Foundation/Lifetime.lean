import Mathlib.Data.Finset.Basic

/-!
# Handles into a table

A program keeps objects in a table, takes a handle to one of them and goes
through the handle while it inserts and erases. A trace lists these events by
the key of the object. It is `Live` when every object is still in the table each
time the program goes through a handle to it. Blocks of a trace are looked at
one by one: `live_append` starts the second with the keys that the first one
leaves.
-/

namespace Lifetime

variable {K : Type}

inductive Event (K : Type) where
  | deref (k : K)
  | insert (k : K)
  | erase (k : K)
deriving DecidableEq

variable [DecidableEq K]

def Event.apply (keys : Finset K) : Event K → Finset K
  | .deref _ => keys
  | .insert k => Insert.insert k keys
  | .erase k => keys.erase k

def keysAfter (keys : Finset K) (trace : List (Event K)) : Finset K := trace.foldl Event.apply keys

/-- An event that does not go through a handle is always fine. -/
def Event.Fine (keys : Finset K) : Event K → Prop
  | .deref k => k ∈ keys
  | .insert _ => True
  | .erase _ => True

/-- **Nothing is used after it was erased.** -/
def Live (keys : Finset K) : List (Event K) → Prop
  | [] => True
  | e :: trace => e.Fine keys ∧ Live (e.apply keys) trace

instance Event.decidableFine (keys : Finset K) (e : Event K) : Decidable (e.Fine keys) :=
  match e with
  | .deref k => inferInstanceAs (Decidable (k ∈ keys))
  | .insert _ => .isTrue trivial
  | .erase _ => .isTrue trivial

instance decidableLive (keys : Finset K) (trace : List (Event K)) : Decidable (Live keys trace) :=
  match trace with
  | [] => .isTrue trivial
  | e :: trace =>
    have := decidableLive (e.apply keys) trace
    inferInstanceAs (Decidable (e.Fine keys ∧ Live (e.apply keys) trace))

variable {keys : Finset K} {k : K} {trace more : List (Event K)}

@[simp] theorem keysAfter_nil : keysAfter keys [] = keys := rfl

@[simp] theorem keysAfter_cons (e : Event K) :
    keysAfter keys (e :: trace) = keysAfter (e.apply keys) trace := rfl

@[simp] theorem keysAfter_append :
    keysAfter keys (trace ++ more) = keysAfter (keysAfter keys trace) more := List.foldl_append

@[simp] theorem live_nil : Live keys [] ↔ True := Iff.rfl

@[simp] theorem live_cons (e : Event K) :
    Live keys (e :: trace) ↔ e.Fine keys ∧ Live (e.apply keys) trace := Iff.rfl

theorem live_append : Live keys (trace ++ more) ↔ Live keys trace ∧
    Live (keysAfter keys trace) more := by
  induction trace generalizing keys with
  | nil => simp
  | cons e trace ih => rw [List.cons_append, live_cons, ih, live_cons, keysAfter_cons, and_assoc]

theorem keysAfter_derefs (h : ∀ e ∈ trace, ∃ k ∈ keys, e = .deref k) :
    keysAfter keys trace = keys := by
  induction trace with
  | nil => rfl
  | cons e trace ih =>
    rw [List.forall_mem_cons] at h
    obtain ⟨⟨k, -, rfl⟩, h⟩ := h
    exact ih h

theorem live_derefs (h : ∀ e ∈ trace, ∃ k ∈ keys, e = .deref k) : Live keys trace := by
  induction trace with
  | nil => trivial
  | cons e trace ih =>
    rw [List.forall_mem_cons] at h
    obtain ⟨⟨k, hk, rfl⟩, h⟩ := h
    exact ⟨hk, ih h⟩

/-- **An erased object** is not used again. -/
theorem not_live_erased (more : List (Event K)) : ¬ Live keys (.erase k :: .deref k :: more) := by
  rintro ⟨-, hk, -⟩
  exact Finset.notMem_erase k keys hk

end Lifetime
