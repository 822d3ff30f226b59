import Mathlib.Data.Int.CardIntervalMod
import Mathlib.Data.List.Flatten
import Mathlib.Data.List.Perm.Basic
import Mathlib.Data.List.Range

/-!
# Dealing items out

Items are dealt to keys one after the other. `dealt` is the hand of one key;
all hands together are a permutation of the items (`flatMap_dealt_perm`), so
nothing is dealt twice or kept back. `flatMap_range_blocks` puts consecutive
blocks of numbers back together.

Two ways to deal: in blocks, a stretch of items for each key (`dealt_blocks`), and
in turns, where no hand gets two items ahead of another (`length_dealt_turns`).
-/

namespace Dealing

variable {κ α : Type} [DecidableEq κ]

def dealt (deals : List (κ × α)) (k : κ) : List α :=
  (deals.filter fun deal => deal.1 = k).map Prod.snd

@[simp] theorem dealt_nil (k : κ) : dealt ([] : List (κ × α)) k = [] := rfl

theorem dealt_cons_self (k : κ) (x : α) (deals : List (κ × α)) :
    dealt ((k, x) :: deals) k = x :: dealt deals k := by
  simp [dealt]

variable {k k' : κ} {keys : List κ}

theorem dealt_cons_of_ne (h : k' ≠ k) (x : α) (deals : List (κ × α)) :
    dealt ((k', x) :: deals) k = dealt deals k := by
  simp [dealt, h]

theorem flatMap_dealt_cons (hnodup : keys.Nodup) (hk : k ∈ keys) (x : α) (deals : List (κ × α)) :
    (keys.flatMap (dealt ((k, x) :: deals))).Perm (x :: keys.flatMap (dealt deals)) := by
  induction keys with
  | nil => cases hk
  | cons k' keys ih =>
    obtain ⟨hnot, hnodup⟩ := List.nodup_cons.mp hnodup
    simp only [List.flatMap_cons]
    rcases List.mem_cons.mp hk with rfl | hmem
    · -- no other key gets it
      have hrest : keys.flatMap (dealt ((k, x) :: deals)) = keys.flatMap (dealt deals) := by
        refine List.flatMap_congr fun k' hk' => dealt_cons_of_ne ?_ x deals
        rintro rfl
        exact hnot hk'
      rw [hrest, dealt_cons_self]
      exact List.Perm.refl _
    · have hne : k ≠ k' := by
        rintro rfl
        exact hnot hmem
      rw [dealt_cons_of_ne hne]
      exact ((ih hnodup hmem).append_left _).trans List.perm_middle

/-- **Nothing is dealt twice or kept back.** -/
theorem flatMap_dealt_perm (hnodup : keys.Nodup) {deals : List (κ × α)}
    (hkeys : ∀ deal ∈ deals, deal.1 ∈ keys) :
    (keys.flatMap (dealt deals)).Perm (deals.map Prod.snd) := by
  induction deals with
  | nil =>
    have hempty : keys.flatMap (dealt ([] : List (κ × α))) = [] := by simp
    rw [hempty, List.map_nil]
  | cons deal deals ih =>
    obtain ⟨k, x⟩ := deal
    have hk : k ∈ keys := hkeys (k, x) (by simp)
    exact (flatMap_dealt_cons hnodup hk x deals).trans
      ((ih fun deal hdeal => hkeys deal (List.mem_cons_of_mem _ hdeal)).cons x)

theorem flatMap_range_blocks (start : ℕ → ℕ) (hzero : start 0 = 0)
    (hmono : ∀ i, start i ≤ start (i + 1)) (n : ℕ) :
    ((List.range n).flatMap fun i =>
      (List.range (start (i + 1) - start i)).map fun p => start i + p) = List.range (start n) := by
  induction n with
  | zero => simp [hzero]
  | succ n ih =>
    rw [List.range_succ, List.flatMap_append, ih, List.flatMap_singleton]
    have hsplit : start (n + 1) = start n + (start (n + 1) - start n) := by
      have := hmono n
      omega
    conv_rhs => rw [hsplit]
    exact List.range_add.symm

/-! ## In blocks -/

omit [DecidableEq κ] in
theorem flatMap_only {β : Type} {xs : List α} (hnodup : xs.Nodup) {x : α} (hx : x ∈ xs)
    {f : α → List β} (hnone : ∀ y ∈ xs, y ≠ x → f y = []) : xs.flatMap f = f x := by
  induction xs with
  | nil => cases hx
  | cons y ys ih =>
    obtain ⟨hnot, hnodup⟩ := List.nodup_cons.mp hnodup
    rw [List.flatMap_cons]
    rcases List.mem_cons.mp hx with rfl | hmem
    · have hrest : ys.flatMap f = [] := by
        rw [List.flatMap_eq_nil_iff]
        intro y hy
        apply hnone y (List.mem_cons_of_mem _ hy)
        rintro rfl
        exact hnot hy
      rw [hrest, List.append_nil]
    · have hne : y ≠ x := by
        rintro rfl
        exact hnot hmem
      rw [hnone y List.mem_cons_self hne, List.nil_append]
      exact ih hnodup hmem fun z hz => hnone z (List.mem_cons_of_mem _ hz)

theorem dealt_flatMap {ι : Type} (xs : List ι) (f : ι → List (κ × α)) (k : κ) :
    dealt (xs.flatMap f) k = xs.flatMap fun x => dealt (f x) k := by
  unfold dealt
  rw [List.filter_flatMap, List.map_flatMap]

theorem dealt_map_self (k : κ) (xs : List α) : dealt (xs.map fun x => (k, x)) k = xs := by
  induction xs with
  | nil => rfl
  | cons x xs ih => rw [List.map_cons, dealt_cons_self, ih]

theorem dealt_map_of_ne (h : k' ≠ k) (xs : List α) : dealt (xs.map fun x => (k', x)) k = [] := by
  induction xs with
  | nil => rfl
  | cons x xs ih => rw [List.map_cons, dealt_cons_of_ne h, ih]

/-- **Dealing in blocks**: the key at place `i` gets block `i`. -/
theorem dealt_blocks (hnodup : keys.Nodup) (block : ℕ → List α) {i : ℕ} (hk : keys[i]? = some k) :
    dealt (keys.zipIdx.flatMap fun e => (block e.2).map fun x => (e.1, x)) k = block i := by
  have hmem : (k, i) ∈ keys.zipIdx := List.mem_zipIdx_iff_getElem?.mpr hk
  have hdistinct : keys.zipIdx.Nodup := by
    apply List.Nodup.of_map Prod.fst
    rwa [List.zipIdx_map_fst]
  rw [dealt_flatMap, flatMap_only hdistinct hmem]
  · exact dealt_map_self k (block i)
  · rintro ⟨k', i'⟩ hmem' hne
    apply dealt_map_of_ne
    rintro rfl
    apply hne
    have hk' := List.mem_zipIdx_iff_getElem?.mp hmem'
    obtain ⟨hi, hki⟩ := List.getElem?_eq_some_iff.mp hk
    obtain ⟨hi', hki'⟩ := List.getElem?_eq_some_iff.mp hk'
    have hplace : i' = i := hnodup.getElem_inj_iff.mp (hki'.trans hki.symm)
    rw [hplace]

theorem length_dealt_turns (xs : List α) (turn : ℕ → κ) (k : κ) :
    (dealt (xs.zipIdx.map fun e => (turn e.2, e.1)) k).length =
      Nat.count (fun i => turn i = k) xs.length := by
  induction xs using List.reverseRecOn with
  | nil => rfl
  | append_singleton xs x ih =>
    have hsplit : (xs ++ [x]).zipIdx = xs.zipIdx ++ [(x, xs.length)] := by
      rw [List.zipIdx_append]
      simp
    rw [hsplit, List.length_append, List.length_singleton, Nat.count_succ, ← ih]
    unfold dealt
    by_cases h : turn xs.length = k
    · simp [h]
    · simp [h]

/-- **Dealing in turns** through a list of keys: any two hands are as large as each
other, up to one. -/
theorem length_dealt_turns_le (hnodup : keys.Nodup) (xs : List α) (default : κ) (hk : k ∈ keys)
    (hk' : k' ∈ keys) :
    (dealt (xs.zipIdx.map fun e => (keys.getD (e.2 % keys.length) default, e.1)) k).length ≤
      (dealt (xs.zipIdx.map fun e => (keys.getD (e.2 % keys.length) default, e.1)) k').length +
        1 := by
  have hpos : 0 < keys.length := List.length_pos_of_mem hk
  have hcount : ∀ c ∈ keys, ∃ j,
      (dealt (xs.zipIdx.map fun e => (keys.getD (e.2 % keys.length) default, e.1)) c).length =
        xs.length / keys.length + if j < xs.length % keys.length then 1 else 0 := by
    intro c hc
    obtain ⟨j, hj, rfl⟩ := List.mem_iff_getElem.mp hc
    refine ⟨j, ?_⟩
    -- the turns of the key at place `j` are `j`, `j + n`, `j + 2n`, …
    have hturn : ∀ i, keys.getD (i % keys.length) default = keys[j] ↔ i ≡ j [MOD keys.length] := by
      intro i
      have hi : i % keys.length < keys.length := Nat.mod_lt i hpos
      rw [List.getD_eq_getElem?_getD, List.getElem?_eq_getElem hi, Option.getD_some,
        hnodup.getElem_inj_iff, Nat.ModEq, Nat.mod_eq_of_lt hj]
    rw [length_dealt_turns xs (fun i => keys.getD (i % keys.length) default)]
    simp only [hturn]
    rw [Nat.count_modEq_card _ hpos, Nat.mod_eq_of_lt hj]
  obtain ⟨j, hj⟩ := hcount k hk
  obtain ⟨j', hj'⟩ := hcount k' hk'
  rw [hj, hj']
  split <;> split <;> omega

end Dealing
