import Mathlib.Algebra.GroupWithZero.Nat
import Mathlib.Data.List.AList

/-!
# Association maps

What finite maps kept as association lists need beyond Mathlib's `AList`:
`mapValues` changes every value in place and keeps the keys and their order,
`lookup_of_mem` finds the value of an entry, and the lemmas on sizes bound the
number of entries after an insertion or erasure. `lastWritten` is the map that a
list of writes stands for: of several writes to one key the last one counts.
-/

namespace AssocMap

variable {α : Type} {β γ : Type}

def mapValues (f : α → β → γ) (m : AList fun _ : α => β) : AList fun _ : α => γ where
  entries := m.entries.map fun e => ⟨e.1, f e.1 e.2⟩
  nodupKeys := by
    have h := m.nodupKeys
    unfold List.NodupKeys List.keys at h ⊢
    rw [List.map_map]
    exact h

@[simp] theorem keys_mapValues (f : α → β → γ) (m : AList fun _ : α => β) :
    (mapValues f m).keys = m.keys := by
  simp only [AList.keys, List.keys, mapValues, List.map_map]
  rfl

variable [DecidableEq α]

theorem lookup_of_mem {m : AList fun _ : α => β} {a : α} {b : β} (h : ⟨a, b⟩ ∈ m.entries) :
    m.lookup a = some b :=
  AList.mem_lookup_iff.mpr h

theorem ne_nil_of_lookup {m : AList fun _ : α => β} {a : α} {b : β} (h : m.lookup a = some b) :
    m.entries ≠ [] :=
  List.ne_nil_of_mem (AList.mem_lookup_iff.mp h)

theorem ne_nil_of_mem {m : AList fun _ : α => β} {a : α} (h : a ∈ m) : m.entries ≠ [] := by
  obtain ⟨b, hb⟩ := Option.isSome_iff_exists.mp (AList.lookup_isSome.mpr h)
  exact ne_nil_of_lookup hb

@[simp] theorem lookup_mapValues (f : α → β → γ) (m : AList fun _ : α => β) (a : α) :
    (mapValues f m).lookup a = (m.lookup a).map (f a) := by
  cases h : m.lookup a with
  | none =>
    rw [AList.lookup_eq_none] at h
    rw [Option.map_none, AList.lookup_eq_none, AList.mem_keys, keys_mapValues, ← AList.mem_keys]
    exact h
  | some b =>
    have hmem : (⟨a, b⟩ : Sigma fun _ : α => β) ∈ m.entries := AList.mem_lookup_iff.mp h
    exact lookup_of_mem (List.mem_map.mpr ⟨_, hmem, rfl⟩)

theorem lookup_insert_eq (m : AList fun _ : α => β) (a a' : α) (b : β) :
    (m.insert a b).lookup a' = if a' = a then some b else m.lookup a' := by
  split
  · rename_i h
    rw [h, AList.lookup_insert]
  · rename_i h
    exact AList.lookup_insert_ne h

omit [DecidableEq α] in
theorem length_keys (m : AList fun _ : α => β) : m.keys.length = m.entries.length :=
  List.length_map _

theorem length_insert_le (m : AList fun _ : α => β) (a : α) (b : β) :
    (m.insert a b).entries.length ≤ m.entries.length + 1 := by
  rw [← length_keys, ← length_keys, AList.keys_insert, List.length_cons]
  exact Nat.succ_le_succ List.length_erase_le

theorem length_insert_of_mem {m : AList fun _ : α => β} {a : α} (h : a ∈ m) (b : β) :
    (m.insert a b).entries.length = m.entries.length := by
  have hmem : a ∈ m.keys := AList.mem_keys.mp h
  rw [← length_keys, ← length_keys, AList.keys_insert, List.length_cons,
    List.length_erase_of_mem hmem]
  exact Nat.succ_pred_eq_of_pos (List.length_pos_of_mem hmem)

/-- A value that is replaced takes its share of a sum along. -/
theorem sum_insert_of_lookup {m : AList fun _ : α => β} {a : α} {b : β} (h : m.lookup a = some b)
    (b' : β) (f : β → ℕ) :
    ((m.insert a b').entries.map fun e => f e.2).sum + f b =
      (m.entries.map fun e => f e.2).sum + f b' := by
  have hmem : a ∈ m.entries.keys := AList.lookup_isSome.mp (by rw [h]; rfl)
  obtain ⟨b₀, before, after, hnot, hentries, hkerase⟩ := List.exists_of_kerase hmem
  have hb : b₀ = b := by
    have hin : (⟨a, b₀⟩ : Sigma fun _ : α => β) ∈ m.entries := by simp [hentries]
    rw [lookup_of_mem hin] at h
    exact Option.some.inj h
  rw [AList.entries_insert, hkerase, hentries, hb]
  simp only [List.map_cons, List.map_append, List.sum_cons, List.sum_append]
  omega

theorem length_erase_le (m : AList fun _ : α => β) (a : α) :
    (m.erase a).entries.length ≤ m.entries.length := by
  rw [← length_keys, ← length_keys, AList.keys_erase]
  exact List.length_erase_le

theorem insert_ne_nil (m : AList fun _ : α => β) (a : α) (b : β) : (m.insert a b).entries ≠ [] :=
  ne_nil_of_lookup (AList.lookup_insert m)

theorem lookup_foldl_erase (as : List α) (m : AList fun _ : α => β) (a : α) :
    (as.foldl (fun m a => m.erase a) m).lookup a = if a ∈ as then none else m.lookup a := by
  induction as generalizing m with
  | nil => rfl
  | cons a' as ih =>
    rw [List.foldl_cons, ih]
    rcases eq_or_ne a a' with rfl | h
    · simp
    · simp [h, AList.lookup_erase_ne]

theorem length_foldl_erase_le (as : List α) (m : AList fun _ : α => β) :
    (as.foldl (fun m a => m.erase a) m).entries.length ≤ m.entries.length := by
  induction as generalizing m with
  | nil => exact le_rfl
  | cons a as ih => exact Nat.le_trans (ih _) (length_erase_le m a)

/-- The value that was written to `a` last. -/
def lastWritten (log : List (α × β)) (a : α) : Option β :=
  ((log.filter fun e => e.1 = a).getLast?).map Prod.snd

@[simp] theorem lastWritten_nil (a : α) : lastWritten ([] : List (α × β)) a = none := rfl

theorem lastWritten_snoc (log : List (α × β)) (a a' : α) (b : β) :
    lastWritten (log ++ [(a, b)]) a' = if a' = a then some b else lastWritten log a' := by
  unfold lastWritten
  rw [List.filter_append]
  by_cases h : a' = a
  · simp [h]
  · simp [h, Ne.symm h]

end AssocMap
