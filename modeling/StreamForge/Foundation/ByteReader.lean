import StreamForge.Foundation.BigEndian

/-!
# Programs over a byte cursor

A decoder of a binary format moves a cursor over a block of memory: it asks how
much is left, takes the next bytes, or gives up. `Reader` is the type of such
programs. They are run in two ways: `exec` on the memory itself, with every
address that is looked at on record, and `run` on the list of bytes behind the
cursor. The two agree, and `exec` looks at nothing outside its block, for every
program whatever it does (`exec_eq`, `exec_inside`); so a format is only ever
reasoned about on lists.

`Codes r P enc` says that `r` inverts `enc` on the values with `P`, and
`Codes.bind_iff` turns a decoder written with `do` into an equation on its
input, field by field.
-/

namespace ByteReader

open BigEndian

/-- What a decoder does next: answer, give up, ask for the number of bytes that
are left, go on only at the end of the block, or take the next `n` bytes. -/
inductive Reader (α : Type) where
  | done (x : α)
  | fail
  | askLeft (next : ℕ → Reader α)
  | askEnd (next : Reader α)
  | askBytes (n : ℕ) (next : List UInt8 → Reader α)

namespace Reader

variable {α β : Type}

protected def bind : Reader α → (α → Reader β) → Reader β
  | done x, f => f x
  | fail, _ => fail
  | askLeft next, f => askLeft fun n => (next n).bind f
  | askEnd next, f => askEnd (next.bind f)
  | askBytes n next, f => askBytes n fun bs => (next bs).bind f

instance : Monad Reader where
  pure := done
  bind := Reader.bind

def left : Reader ℕ := askLeft done

def atEnd : Reader Unit := askEnd (done ())

def bytes (n : ℕ) : Reader (List UInt8) := askBytes n done

def guarded (cond : Bool) : Reader Unit := if cond then done () else fail

def repeated (n : ℕ) (read : Reader α) : Reader (List α) :=
  match n with
  | 0 => return []
  | n + 1 => do
    let x ← read
    let xs ← repeated n read
    return x :: xs

/-! ## The two ways to run a program -/

/-- On the bytes behind the cursor. The answer comes with the bytes that are left. -/
def run : Reader α → List UInt8 → Option (α × List UInt8)
  | done x, bs => some (x, bs)
  | fail, _ => none
  | askLeft next, bs => (next bs.length).run bs
  | askEnd next, bs => if bs.isEmpty then next.run bs else none
  | askBytes n next, bs => if bs.length < n then none else (next (bs.take n)).run (bs.drop n)

/-- `size - cursor`, without the wrap of an unsigned subtraction. -/
def remainingAt (size cursor : ℕ) : ℕ := if cursor < size then size - cursor else 0

/-- On a block of `size` bytes at the start of `mem`, with the cursor as an
index into it. The second component is every index that was looked at, also
when the program gives up. -/
def exec (mem : ℕ → UInt8) (size : ℕ) : Reader α → ℕ → Option (α × ℕ) × List ℕ
  | done x, cursor => (some (x, cursor), [])
  | fail, _ => (none, [])
  | askLeft next, cursor => exec mem size (next (remainingAt size cursor)) cursor
  | askEnd next, cursor => if cursor = size then exec mem size next cursor else (none, [])
  | askBytes n next, cursor =>
    if remainingAt size cursor < n then (none, [])
    else
      let indices := List.range' cursor n
      let result := exec mem size (next (indices.map mem)) (cursor + n)
      (result.1, indices ++ result.2)

def behind (mem : ℕ → UInt8) (size cursor : ℕ) : List UInt8 :=
  (List.range' cursor (size - cursor)).map mem

theorem length_behind (mem : ℕ → UInt8) (size cursor : ℕ) :
    (behind mem size cursor).length = size - cursor := by
  simp [behind]

theorem remainingAt_eq (size cursor : ℕ) : remainingAt size cursor = size - cursor := by
  unfold remainingAt
  split <;> omega

theorem behind_split (mem : ℕ → UInt8) {size cursor n : ℕ} (h : n ≤ size - cursor) :
    behind mem size cursor = (List.range' cursor n).map mem ++ behind mem size (cursor + n) := by
  unfold behind
  rw [← List.map_append]
  congr 1
  have hsplit := @List.range'_append_1 cursor n (size - (cursor + n))
  rw [hsplit]
  congr 1
  omega

/-- **The memory and the list give the same answer**, and the cursor stays in the block. -/
theorem exec_eq (mem : ℕ → UInt8) (size : ℕ) (r : Reader α) {cursor : ℕ} (h : cursor ≤ size) :
    (exec mem size r cursor).1 =
      (run r (behind mem size cursor)).map fun (x, rest) => (x, size - rest.length) := by
  induction r generalizing cursor with
  | done x =>
    show some (x, cursor) = some (x, size - (behind mem size cursor).length)
    rw [length_behind, Nat.sub_sub_self h]
  | fail => rfl
  | askLeft next ih =>
    rw [exec, run, length_behind, remainingAt_eq]
    exact ih _ h
  | askEnd next ih =>
    have hend : (behind mem size cursor).isEmpty ↔ cursor = size := by
      rw [List.isEmpty_iff, ← List.length_eq_zero_iff, length_behind]
      omega
    rw [exec, run]
    by_cases hcursor : cursor = size
    · rw [if_pos hcursor, if_pos (hend.mpr hcursor)]
      exact ih h
    · rw [if_neg hcursor, if_neg (mt hend.mp hcursor)]
      rfl
  | askBytes n next ih =>
    rw [exec, run, length_behind, remainingAt_eq]
    by_cases hn : size - cursor < n
    · simp [hn]
    · have hsplit := behind_split mem (Nat.le_of_not_lt hn)
      have hlen : ((List.range' cursor n).map mem).length = n := by simp
      rw [if_neg hn, if_neg hn, hsplit, List.take_left' hlen, List.drop_left' hlen]
      exact ih _ (by omega)

/-- **No program looks outside its block.** -/
theorem exec_inside (mem : ℕ → UInt8) (size : ℕ) (r : Reader α) {cursor : ℕ} (h : cursor ≤ size) :
    ∀ i ∈ (exec mem size r cursor).2, i < size := by
  induction r generalizing cursor with
  | done x => simp [exec]
  | fail => simp [exec]
  | askLeft next ih => exact ih _ h
  | askEnd next ih =>
    rw [exec]
    split
    · exact ih h
    · simp
  | askBytes n next ih =>
    rw [exec, remainingAt_eq]
    split
    · simp
    · intro i hi
      rcases List.mem_append.mp hi with hi | hi
      · obtain ⟨hlow, hhigh⟩ := List.mem_range'_1.mp hi
        omega
      · exact ih _ (by omega) i hi

/-- A block that holds the bytes of a list, in a memory that goes on with
`beyond` behind it. -/
def memoryOf (bs : List UInt8) (beyond : ℕ → UInt8) : ℕ → UInt8 := fun i => bs.getD i (beyond i)

theorem behind_memoryOf (bs : List UInt8) (beyond : ℕ → UInt8) :
    behind (memoryOf bs beyond) bs.length 0 = bs := by
  apply List.ext_getElem
  · simp [behind]
  · intro i hi hlen
    simp [behind, memoryOf, List.getD_eq_getElem?_getD, hlen]

/-! ## Running a program written with `do` -/

theorem run_pure (x : α) (bs : List UInt8) : run (pure x) bs = some (x, bs) := rfl

theorem run_bind (r : Reader α) (f : α → Reader β) (bs : List UInt8) :
    run (r >>= f) bs = (run r bs).bind fun (x, rest) => run (f x) rest := by
  show run (r.bind f) bs = _
  induction r generalizing bs with
  | done x => rfl
  | fail => rfl
  | askLeft next ih => exact ih _ bs
  | askEnd next ih =>
    rw [Reader.bind, run, run]
    split
    · exact ih bs
    · rfl
  | askBytes n next ih =>
    rw [Reader.bind, run, run]
    split
    · rfl
    · exact ih _ _

variable {P : α → Prop} {enc : α → List UInt8} {r : Reader α} {f : α → Reader β}
  {body rest : List UInt8} {y : β}

theorem bind_eq_some : run (r >>= f) body = some (y, rest) ↔
    ∃ x mid, run r body = some (x, mid) ∧ run (f x) mid = some (y, rest) := by
  rw [run_bind, Option.bind_eq_some_iff]
  constructor
  · rintro ⟨⟨x, mid⟩, hr, hf⟩
    exact ⟨x, mid, hr, hf⟩
  · rintro ⟨x, mid, hr, hf⟩
    exact ⟨(x, mid), hr, hf⟩

theorem pure_eq_some {x z : α} : run (pure x) body = some (z, rest) ↔ x = z ∧ body = rest := by
  rw [run_pure, Option.some.injEq, Prod.mk.injEq]

theorem left_bind_eq_some {f : ℕ → Reader β} :
    run (left >>= f) body = some (y, rest) ↔ run (f body.length) body = some (y, rest) :=
  Iff.rfl

theorem atEnd_bind_eq_some {f : Unit → Reader β} :
    run (atEnd >>= f) body = some (y, rest) ↔ body = [] ∧ run (f ()) [] = some (y, rest) := by
  cases body with
  | nil => simp [run_bind, atEnd, run]
  | cons b bs => simp [run_bind, atEnd, run]

theorem guarded_bind_eq_some {cond : Bool} {f : Unit → Reader β} :
    run (guarded cond >>= f) body = some (y, rest) ↔
      cond = true ∧ run (f ()) body = some (y, rest) := by
  cases cond with
  | true => simp [run_bind, guarded, run]
  | false => simp [run_bind, guarded, run]

/-! ## Inverse of an encoder -/

/-- The reader accepts exactly the encodings of the values with `P`, and leaves
what stands behind them. -/
def Codes (r : Reader α) (P : α → Prop) (enc : α → List UInt8) : Prop :=
  ∀ body x rest, run r body = some (x, rest) ↔ P x ∧ body = enc x ++ rest

theorem Codes.bind_iff (h : Codes r P enc) : run (r >>= f) body = some (y, rest) ↔
    ∃ x, P x ∧ ∃ mid, body = enc x ++ mid ∧ run (f x) mid = some (y, rest) := by
  rw [bind_eq_some]
  constructor
  · rintro ⟨x, mid, hr, hf⟩
    obtain ⟨hP, hbody⟩ := (h _ _ _).mp hr
    exact ⟨x, hP, mid, hbody, hf⟩
  · rintro ⟨x, hP, mid, hbody, hf⟩
    exact ⟨x, mid, (h _ _ _).mpr ⟨hP, hbody⟩, hf⟩

theorem codes_bytes (n : ℕ) : Codes (bytes n) (fun bs => bs.length = n) id := by
  intro body x rest
  show (if body.length < n then none else some (body.take n, body.drop n)) = some (x, rest) ↔ _
  constructor
  · intro h
    split at h
    · cases h
    · cases h
      exact ⟨List.length_take_of_le (by omega), (List.take_append_drop n body).symm⟩
  · rintro ⟨hlen, rfl⟩
    have hle : ¬ (id x ++ rest).length < n := by
      rw [List.length_append, id]
      omega
    rw [if_neg hle, id, List.take_left' hlen, List.drop_left' hlen]

theorem Codes.map (h : Codes r P enc) {g : α → β} {back : β → α}
    (hback : ∀ x, P x → back (g x) = x) (hg : ∀ y, g (back y) = y) :
    Codes (r >>= fun x => pure (g x)) (fun y => P (back y)) (fun y => enc (back y)) := by
  intro body y rest
  rw [h.bind_iff]
  constructor
  · rintro ⟨x, hP, mid, rfl, hx⟩
    obtain ⟨rfl, rfl⟩ := pure_eq_some.mp hx
    show P (back (g x)) ∧ enc x ++ mid = enc (back (g x)) ++ mid
    rw [hback x hP]
    exact ⟨hP, rfl⟩
  · rintro ⟨hP, rfl⟩
    exact ⟨back y, hP, rest, rfl, pure_eq_some.mpr ⟨hg y, rfl⟩⟩

theorem codes_fixed (w : ℕ) {ofNat : ℕ → β} {toNat : β → ℕ} (hlt : ∀ x, toNat x < 256 ^ w)
    (hof : ∀ x, ofNat (toNat x) = x) (hto : ∀ n < 256 ^ w, toNat (ofNat n) = n) :
    Codes (bytes w >>= fun bs => pure (ofNat (ofBE bs))) (fun _ => True)
      (fun x => toBE w (toNat x)) := by
  have hback : ∀ bs : List UInt8, bs.length = w → toBE w (toNat (ofNat (ofBE bs))) = bs := by
    rintro bs rfl
    rw [hto _ (ofBE_lt bs), toBE_ofBE]
  have hread : ∀ x, ofNat (ofBE (toBE w (toNat x))) = x := by
    intro x
    rw [ofBE_toBE_of_lt (hlt x), hof]
  have hcodes := (codes_bytes w).map (g := fun bs => ofNat (ofBE bs)) hback hread
  intro body x rest
  rw [hcodes]
  simp

theorem Codes.repeated (h : Codes r P enc) (n : ℕ) :
    Codes (Reader.repeated n r) (fun xs => xs.length = n ∧ ∀ x ∈ xs, P x) (·.flatMap enc) := by
  induction n with
  | zero =>
    intro body xs rest
    rw [Reader.repeated, pure_eq_some]
    constructor
    · rintro ⟨rfl, rfl⟩
      simp
    · rintro ⟨⟨hlen, -⟩, rfl⟩
      rw [List.length_eq_zero_iff.mp hlen]
      simp
  | succ n ih =>
    intro body xs rest
    rw [Reader.repeated, h.bind_iff]
    simp only [ih.bind_iff, pure_eq_some]
    constructor
    · rintro ⟨x, hx, _, rfl, xs, ⟨hlen, hall⟩, _, rfl, rfl, rfl⟩
      refine ⟨⟨by simp [hlen], ?_⟩, by simp⟩
      rintro z (_ | ⟨_, hz⟩)
      · exact hx
      · exact hall z hz
    · rintro ⟨⟨hlen, hall⟩, rfl⟩
      cases xs with
      | nil => cases hlen
      | cons x xs =>
        refine ⟨x, hall x (by simp), _, by simp, xs, ⟨?_, ?_⟩, _, rfl, rfl, rfl⟩
        · simpa using hlen
        · intro z hz
          exact hall z (by simp [hz])

end Reader

end ByteReader
