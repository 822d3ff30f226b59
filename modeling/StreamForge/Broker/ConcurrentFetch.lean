import StreamForge.Broker.MessageHandler
import StreamForge.Broker.SharedPartition

/-!
# FETCH among other threads

`handle_fetch` asks its partition three times: for the next offset and the
earliest offset, without the lock, and then for the records. Other threads work
on the partition before, between and after. A consumer that goes on from the
`next_offset` of every answer gets the log without gaps and without repetitions
all the same; that is because the log only grows, and what it has is found by
every later read.

The high watermark of the answer is the first of the three values, so the
records can go beyond it.
-/

namespace StreamForge

open FileTrace

namespace MessageHandler

/-! ## The three calls -/

/-- What FETCH makes of its partition: a response, or an error code with a text. -/
inductive FetchAnswer where
  | ok (resp : FetchResponse)
  | error (code : UInt16) (message : Bytes)
  deriving DecidableEq

def FetchAnswer.frame (requestId : UInt32) : FetchAnswer → Frame
  | .ok resp => makeFrame MessageType.FETCH_OK requestId resp.encode
  | .error code message => createErrorFrame requestId code message

/-- The answer from the two offsets, if they are enough for one. -/
def fetchBounds (msg : FetchRequest) (hw earliest : UInt64) : Option FetchAnswer :=
  if msg.startOffset = hw then some (.ok ⟨hw, hw, earliest, 0, []⟩)
  else if hw < msg.startOffset ∨ msg.startOffset < earliest then
    some (.error ErrorCode.OFFSET_OUT_OF_RANGE
      (ascii "Start offset " ++ toString msg.startOffset.toNat ++
        ascii " out of valid range [" ++ toString earliest.toNat ++ ascii ", " ++
        toString hw.toNat ++ ascii ")"))
  else none

def fetchCall (msg : FetchRequest) (part : Partition) (fs : FileSystem) : Partition.ReadResult :=
  part.read fs msg.startOffset msg.maxMessages.toNat (min msg.maxBytes.toNat 1048500)

def fetchRead (msg : FetchRequest) (hw earliest : UInt64) (rr : Partition.ReadResult) :
    FetchAnswer :=
  if !rr.status.ok then .error (mapStatusToErrorCode rr.status) rr.status.message
  else .ok (fetchResponse msg hw earliest rr.records)

/-- **Without other threads the three calls are `handle_fetch`.** -/
theorem fetchFrom_eq (req : Frame) (msg : FetchRequest) (part : Partition) (fs : FileSystem) :
    fetchFrom req msg part fs =
      FetchAnswer.frame req.requestId ((fetchBounds msg part.nextOffset part.earliestOffset).getD
        (fetchRead msg part.nextOffset part.earliestOffset (fetchCall msg part fs))) := by
  unfold fetchFrom fetchBounds fetchRead fetchCall
  simp only
  split
  · rfl
  · split
    · rfl
    · simp only [Option.getD_none]
      split
      · rfl
      · rfl

end MessageHandler

open MessageHandler

/-- **A FETCH from `s` on**: what it answers, and the partition at its last call.
Steps of other threads satisfy `P` before the high watermark is read and `Q`
from then on. -/
inductive Fetch (P Q : Shared → SharedOp → Prop) (msg : FetchRequest) (s : Shared) :
    FetchAnswer → Shared → Prop where
  | bounds {s₁ s₂ : Shared} {answer : FetchAnswer} : Works P s s₁ → Works Q s₁ s₂ →
      fetchBounds msg s₁.part.nextOffset s₂.part.earliestOffset = some answer →
      Fetch P Q msg s answer s₂
  | read {s₁ s₂ s₃ : Shared} : Works P s s₁ → Works Q s₁ s₂ →
      fetchBounds msg s₁.part.nextOffset s₂.part.earliestOffset = none → Works Q s₂ s₃ →
      s₃.writing = none →
      Fetch P Q msg s (fetchRead msg s₁.part.nextOffset s₂.part.earliestOffset
        (fetchCall msg s₃.part (Fs.start s₃.dir))) s₃

/-! ## What the calls return -/

variable {msg : FetchRequest} {answer : FetchAnswer} {s s' : Shared}

theorem fetchBounds_cases {hw earliest : UInt64} (h : fetchBounds msg hw earliest = some answer) :
    msg.startOffset = hw ∧ answer = .ok ⟨hw, hw, earliest, 0, []⟩ ∨
      msg.startOffset ≠ hw ∧ (hw < msg.startOffset ∨ msg.startOffset < earliest) ∧
      ∃ text, answer = .error ErrorCode.OFFSET_OUT_OF_RANGE text := by
  unfold fetchBounds at h
  split at h
  · rename_i heq
    cases h
    exact Or.inl ⟨heq, rfl⟩
  · rename_i hne
    split at h
    · rename_i hout
      cases h
      exact Or.inr ⟨hne, hout, _, rfl⟩
    · cases h

theorem fetchBounds_none {hw earliest : UInt64} (h : fetchBounds msg hw earliest = none) :
    msg.startOffset < hw ∧ earliest ≤ msg.startOffset := by
  unfold fetchBounds at h
  split at h
  · cases h
  · rename_i hne
    split at h
    · cases h
    · rename_i hin
      rw [not_or, UInt64.not_lt, UInt64.not_lt] at hin
      exact ⟨UInt64.lt_of_le_of_ne hin.1 hne, hin.2⟩

section Read

variable {s : Shared} {msg : FetchRequest}

/-- **A read inside the log** is a non-empty piece of it, which the count of the
answer can express. -/
theorem SharedInv.fetchCall (h : SharedInv s) (hlt : msg.startOffset < s.part.nextOffset)
    (hle : s.part.earliestOffset ≤ msg.startOffset) :
    ∃ k, 0 < k ∧ k < 65536 ∧ msg.startOffset.toNat + k ≤ s.log.length ∧
      fetchCall msg s.part (Fs.start s.dir) =
        ⟨(s.log.drop msg.startOffset.toNat).take k, .OK⟩ := by
  have hltNat := UInt64.lt_iff_toNat_lt.mp hlt
  rw [h.next_toNat] at hltNat
  have hread := (h.holds.1.readsAsScanned h.log_lt msg.startOffset msg.maxMessages.toNat
    (min msg.maxBytes.toNat 1048500)).inside hlt hle
  simp only [h.next_toNat] at hread
  rw [List.take_of_length_le (by rw [List.length_drop])] at hread
  have hne : s.log.drop msg.startOffset.toNat ≠ [] := by
    rw [ne_eq, List.drop_eq_nil_iff]
    omega
  have hbytes := length_scanned_bytes msg.maxMessages.toNat (min msg.maxBytes.toNat 1048500)
    (s.log.drop msg.startOffset.toNat)
  obtain ⟨k, hk, hkle, heq⟩ :=
    scanned_eq_take msg.maxMessages.toNat (min msg.maxBytes.toNat 1048500) hne
  rw [List.length_drop] at hkle
  rw [heq, List.length_take, List.length_drop] at hbytes
  refine ⟨k, hk, by omega, by omega, ?_⟩
  rw [MessageHandler.fetchCall, hread, heq]

theorem SharedInv.fetchRead (h : SharedInv s) (hlt : msg.startOffset < s.part.nextOffset)
    (hle : s.part.earliestOffset ≤ msg.startOffset) (hw earliest : UInt64) :
    ∃ k next, 0 < k ∧ k < 65536 ∧ msg.startOffset.toNat + k ≤ s.log.length ∧
      next.toNat = msg.startOffset.toNat + k ∧
      fetchRead msg hw earliest (MessageHandler.fetchCall msg s.part (Fs.start s.dir)) =
        .ok ⟨next, hw, earliest, countOf ((s.log.drop msg.startOffset.toNat).take k),
          (s.log.drop msg.startOffset.toNat).take k⟩ := by
  obtain ⟨k, hk, hcount, hkle, heq⟩ := h.fetchCall hlt hle
  have hlen : ((s.log.drop msg.startOffset.toNat).take k).length = k := by
    rw [List.length_take, List.length_drop]
    omega
  have hroom := h.log_lt
  obtain ⟨last, hlast, hnext⟩ :=
    ((h.consecutive.drop msg.startOffset.toNat).take k).getLast (by omega) (by omega)
  rw [hlen, Nat.zero_add] at hnext
  refine ⟨k, last.offset + 1, hk, hcount, hkle, hnext, ?_⟩
  rw [heq]
  simp only [MessageHandler.fetchRead, Status.if_not_ok, fetchResponse, hlast]

theorem fetchRead_outside (h : msg.startOffset < s.part.earliestOffset)
    (hne : msg.startOffset ≠ s.part.nextOffset) (hw earliest : UInt64) :
    ∃ text, fetchRead msg hw earliest (MessageHandler.fetchCall msg s.part (Fs.start s.dir)) =
      .error ErrorCode.OFFSET_OUT_OF_RANGE text := by
  obtain ⟨hcode, -⟩ := read_outside (Or.inr h) hne (Fs.start s.dir) msg.maxMessages.toNat
    (min msg.maxBytes.toNat 1048500)
  unfold MessageHandler.fetchRead MessageHandler.fetchCall
  rw [Status.ok, hcode]
  simp only [mapStatusToErrorCode, hcode]
  exact ⟨_, rfl⟩

end Read

abbrev Limits (s : Shared) (op : SharedOp) : Prop := op.Within s

/-- **What a FETCH from inside the log answers**: a piece of the log that begins
at its start offset, or that the offset is not there any more. -/
inductive Delivered (msg : FetchRequest) (s s' : Shared) : FetchAnswer → Prop where
  | ok {k : ℕ} {resp : FetchResponse} : k < 65536 → msg.startOffset.toNat + k ≤ s'.log.length →
      resp.nextOffset.toNat = msg.startOffset.toNat + k →
      resp.records = (s'.log.drop msg.startOffset.toNat).take k →
      (msg.startOffset < s.part.nextOffset → 0 < k) → Delivered msg s s' (.ok resp)
  | removed {m : Shared} {text : Bytes} : Works Limits s m → Works Limits m s' →
      msg.startOffset < m.part.earliestOffset →
      Delivered msg s s' (.error ErrorCode.OFFSET_OUT_OF_RANGE text)

theorem SharedInv.fetch (h : SharedInv s) (hstart : msg.startOffset ≤ s.part.nextOffset)
    (hfetch : Fetch Limits Limits msg s answer s') : Delivered msg s s' answer := by
  have hstartNat := UInt64.le_iff_toNat_le.mp hstart
  rw [h.next_toNat] at hstartNat
  cases hfetch with
  | @bounds s₁ _ _ hfirst hsecond hbounds =>
    obtain ⟨hinv₁, hgrow₁⟩ := h.works hfirst
    obtain ⟨hinv₂, hgrow₂⟩ := hinv₁.works hsecond
    rcases fetchBounds_cases hbounds with ⟨heq, rfl⟩ | ⟨-, hout, text, rfl⟩
    · refine @Delivered.ok _ _ _ 0 _ (by omega) ?_ (by rw [heq, Nat.add_zero]) rfl ?_
      · have := hgrow₁.length_le
        have := hgrow₂.length_le
        omega
      · -- the high watermark is not below what the log was when it was sent
        intro hlt
        have hltNat := UInt64.lt_iff_toNat_lt.mp hlt
        rw [heq, hinv₁.next_toNat, h.next_toNat] at hltNat
        have := hgrow₁.length_le
        omega
    · rcases hout with hbeyond | hbelow
      · have hltNat := UInt64.lt_iff_toNat_lt.mp hbeyond
        rw [hinv₁.next_toNat] at hltNat
        have := hgrow₁.length_le
        omega
      · exact .removed (hfirst.trans hsecond) .refl hbelow
  | @read s₁ s₂ _ hfirst hsecond hbounds hthird hwriting =>
    obtain ⟨hinv₁, hgrow₁⟩ := h.works hfirst
    obtain ⟨hinv₂, hgrow₂⟩ := hinv₁.works hsecond
    obtain ⟨hinv₃, hgrow₃⟩ := hinv₂.works hthird
    obtain ⟨hlt, -⟩ := fetchBounds_none hbounds
    have hinside : msg.startOffset < s'.part.nextOffset := by
      have hltNat := UInt64.lt_iff_toNat_lt.mp hlt
      have := (hgrow₂.trans hgrow₃).length_le
      rw [hinv₁.next_toNat] at hltNat
      rw [UInt64.lt_iff_toNat_lt, hinv₃.next_toNat]
      omega
    by_cases hle : s'.part.earliestOffset ≤ msg.startOffset
    · obtain ⟨k, next, hk, hcount, hkle, hnext, heq⟩ := hinv₃.fetchRead hinside hle
        s₁.part.nextOffset s₂.part.earliestOffset
      rw [heq]
      exact .ok hcount hkle hnext rfl fun _ => hk
    · have hbelow := UInt64.not_le.mp hle
      obtain ⟨text, heq⟩ := fetchRead_outside hbelow (UInt64.ne_of_lt hinside)
        s₁.part.nextOffset s₂.part.earliestOffset
      rw [heq]
      exact .removed ((hfirst.trans hsecond).trans hthird) .refl hbelow

/-! ## A consumer -/

/-- **A consumer** that began at `first`: what it has got, and where it goes on.
Between its requests and during them other threads work on the partition. -/
inductive Consumes (P : Shared → SharedOp → Prop) (s : Shared) (first : UInt64) :
    List Record → UInt64 → Shared → Prop where
  | start : Consumes P s first [] first s
  | ok {got : List Record} {cursor : UInt64} {s₁ s₂ s₃ : Shared} {msg : FetchRequest}
      {resp : FetchResponse} : Consumes P s first got cursor s₁ → Works P s₁ s₂ →
      msg.startOffset = cursor → 0 < msg.maxBytes → 0 < msg.maxMessages →
      Fetch P P msg s₂ (.ok resp) s₃ → Consumes P s first (got ++ resp.records) resp.nextOffset s₃
  | error {got : List Record} {cursor : UInt64} {s₁ s₂ s₃ : Shared} {msg : FetchRequest}
      {code : UInt16} {text : Bytes} : Consumes P s first got cursor s₁ → Works P s₁ s₂ →
      msg.startOffset = cursor → 0 < msg.maxBytes → 0 < msg.maxMessages →
      Fetch P P msg s₂ (.error code text) s₃ → Consumes P s first got cursor s₃

theorem Fetch.works {P : Shared → SharedOp → Prop} (h : Fetch P P msg s answer s') :
    Works P s s' := by
  cases h with
  | bounds hfirst hsecond _ => exact hfirst.trans hsecond
  | read hfirst hsecond _ hthird _ => exact (hfirst.trans hsecond).trans hthird

/-- What the consumer has got so far is the log from `first` up to its cursor. -/
structure Caught (s : Shared) (first : UInt64) (got : List Record) (cursor : UInt64) : Prop where
  inv : SharedInv s
  cursor_le : cursor.toNat ≤ s.log.length
  cursor_eq : cursor.toNat = first.toNat + got.length
  got_eq : got = (s.log.drop first.toNat).take got.length

section Caught

variable {s s' : Shared} {first cursor : UInt64} {got : List Record}

theorem take_eq_of_grown {α : Type} {a b : List α} (h : a <+: b) {n : ℕ} (hn : n ≤ a.length) :
    b.take n = a.take n := by
  obtain ⟨c, rfl⟩ := h
  exact List.take_append_of_le_length hn

theorem Caught.works (h : Caught s first got cursor) (hworks : Works Limits s s') :
    Caught s' first got cursor := by
  obtain ⟨hinv, hgrow⟩ := h.inv.works hworks
  have hlen := hgrow.length_le
  have hle := h.cursor_le
  have hcursor := h.cursor_eq
  refine ⟨hinv, by omega, hcursor, ?_⟩
  rw [take_eq_of_grown (hgrow.drop first.toNat) (by rw [List.length_drop]; omega)]
  exact h.got_eq

theorem Caught.served (h : Caught s first got cursor) (hinv : SharedInv s') {k : ℕ}
    {next : UInt64} (hgrow : s.log <+: s'.log) (hle : cursor.toNat + k ≤ s'.log.length)
    (hnext : next.toNat = cursor.toNat + k) :
    Caught s' first (got ++ (s'.log.drop cursor.toNat).take k) next := by
  have hlen : ((s'.log.drop cursor.toNat).take k).length = k := by
    rw [List.length_take, List.length_drop]
    omega
  have hcursor := h.cursor_eq
  have hcursorLe := h.cursor_le
  have hgot : got = (s'.log.drop first.toNat).take got.length := by
    rw [take_eq_of_grown (hgrow.drop first.toNat) (by rw [List.length_drop]; omega)]
    exact h.got_eq
  refine ⟨hinv, by omega, by rw [List.length_append, hlen]; omega, ?_⟩
  rw [List.length_append, hlen, List.take_add, List.drop_drop, ← hcursor, ← hgot]

theorem Caught.consumes {s₀ : Shared} (hstart : Caught s₀ first [] first)
    (h : Consumes Limits s₀ first got cursor s) : Caught s first got cursor := by
  induction h with
  | start => exact hstart
  | ok _ hworks hcursor _ _ hfetch ih =>
    subst hcursor
    have hready := ih.works hworks
    have hnext := hready.inv.next_toNat
    have hle : _ ≤ _ := UInt64.le_iff_toNat_le.mpr (hready.cursor_le.trans_eq hnext.symm)
    obtain ⟨hinv, hgrow⟩ := hready.inv.works hfetch.works
    cases hready.inv.fetch hle hfetch with
    | ok _ hkle hknext hrecords _ =>
      rw [hrecords]
      exact hready.served hinv hgrow hkle hknext
  | error _ hworks _ _ _ hfetch ih => exact (ih.works hworks).works hfetch.works

end Caught

/-- **A consumer that follows `next_offset` misses and repeats nothing.** What it
has got are the appended records from its first offset on. Its next request is
told that its offset is out of range only if it is below the earliest one at some
moment in between, and gets a record if there was one when it was sent. -/
theorem consumer_misses_nothing {s₀ s : Shared} (hlived : Lived Limits s₀) {first cursor : UInt64}
    (hfirst : first ≤ s₀.part.nextOffset) {got : List Record}
    (hrun : Consumes Limits s₀ first got cursor s) :
    got = (s.log.drop first.toNat).take got.length ∧
      got.map (fun r => r.offset.toNat) = List.range' first.toNat got.length ∧
      ∀ {s₁ s₂ : Shared} {msg : FetchRequest} {answer : FetchAnswer}, Works Limits s s₁ →
        msg.startOffset = cursor → 0 < msg.maxBytes → 0 < msg.maxMessages →
        Fetch Limits Limits msg s₁ answer s₂ →
        (∀ text, answer = .error ErrorCode.OFFSET_OUT_OF_RANGE text →
          ∃ m, Works Limits s₁ m ∧ Works Limits m s₂ ∧ cursor < m.part.earliestOffset) ∧
        (cursor < s₁.part.nextOffset → ∀ resp, answer = .ok resp → resp.records ≠ []) := by
  have hinv := hlived.sharedInv
  have hstart : Caught s₀ first [] first :=
    ⟨hinv, hinv.next_toNat ▸ UInt64.le_iff_toNat_le.mp hfirst, rfl, rfl⟩
  have hcaught := hstart.consumes hrun
  refine ⟨hcaught.got_eq, ?_, ?_⟩
  · have hcons := (hcaught.inv.consecutive.drop first.toNat).take got.length
    rw [← hcaught.got_eq, Nat.zero_add] at hcons
    exact hcons.map_offset
  · intro s₁ s₂ msg answer hworks hcursor _ _ hfetch
    subst hcursor
    have hready := hcaught.works hworks
    have hle : msg.startOffset ≤ s₁.part.nextOffset :=
      UInt64.le_iff_toNat_le.mpr (hready.cursor_le.trans_eq hready.inv.next_toNat.symm)
    cases hready.inv.fetch hle hfetch with
    | @ok k resp _ hkle _ hrecords hsome =>
      refine ⟨fun _ heq => (nomatch heq), ?_⟩
      intro hlt resp' heq
      cases heq
      have hk := hsome hlt
      rw [hrecords, ne_eq, List.take_eq_nil_iff, List.drop_eq_nil_iff]
      omega
    | @removed m text hbefore hafter hbelow =>
      exact ⟨fun _ _ => ⟨m, hbefore, hafter, hbelow⟩, fun _ _ heq => nomatch heq⟩

section Example

def oneRecord : Shared := (Shared.new 0 [] {}).append [1] [10] 5

def twoRecords : Shared := oneRecord.append [2] [20] 6

theorem append_writing (s : Shared) (key value : Bytes) (timestampMs : Int64) :
    (s.append key value timestampMs).writing = s.writing := by
  unfold Shared.append
  split
  · rfl
  · rfl

theorem lived_oneRecord : Lived Limits oneRecord :=
  (Lived.new 0 [] {}).work (by decide) (Work.append [1] [10] 5 rfl)

theorem works_twoRecords : Works Limits oneRecord twoRecords :=
  .single ⟨.append [2] [20] 6, by decide +kernel, Work.append [2] [20] 6 (append_writing ..)⟩

def fetchOne (startOffset : UInt64) : FetchRequest := ⟨ascii "t", 0, startOffset, 100, 1⟩

/-- The second record comes while the first is being fetched. -/
theorem consumer_misses_nothing_two_fetches : ∃ got cursor,
    Consumes Limits oneRecord 0 got cursor twoRecords ∧
      got.map (fun r => r.offset.toNat) = List.range' 0 got.length ∧
      got.map Record.value = [[10], [20]] := by
  have hbounds : (fetchBounds (fetchOne 0) oneRecord.part.nextOffset
      oneRecord.part.earliestOffset) = none := by decide +kernel
  have hbounds' : (fetchBounds (fetchOne 1) twoRecords.part.nextOffset
      twoRecords.part.earliestOffset) = none := by decide +kernel
  have hread : fetchRead (fetchOne 0) oneRecord.part.nextOffset oneRecord.part.earliestOffset
      (fetchCall (fetchOne 0) twoRecords.part (Fs.start twoRecords.dir)) =
      .ok ⟨1, 1, 0, 1, [⟨0, 5, [1], [10]⟩]⟩ := by decide +kernel
  have hread' : fetchRead (fetchOne 1) twoRecords.part.nextOffset twoRecords.part.earliestOffset
      (fetchCall (fetchOne 1) twoRecords.part (Fs.start twoRecords.dir)) =
      .ok ⟨2, 2, 0, 1, [⟨1, 6, [2], [20]⟩]⟩ := by decide +kernel
  have hidle : twoRecords.writing = none := (append_writing ..).trans (append_writing ..)
  have hfirst := @Fetch.read Limits Limits (fetchOne 0) oneRecord _ _ twoRecords .refl .refl hbounds
    works_twoRecords hidle
  rw [hread] at hfirst
  have hsecond := @Fetch.read Limits Limits (fetchOne 1) twoRecords _ _ twoRecords .refl .refl
    hbounds' .refl hidle
  rw [hread'] at hsecond
  have hrun := Consumes.ok (Consumes.ok (@Consumes.start Limits oneRecord 0) .refl rfl (by decide)
    (by decide) hfirst) .refl rfl (by decide) (by decide) hsecond
  exact ⟨_, _, hrun, (consumer_misses_nothing lived_oneRecord (by decide +kernel) hrun).2.1, rfl⟩

end Example

/-! ### A value that a 32-bit length cuts -/

def emptyRecord : Shared := (Shared.new 0 [] {}).append [] [] 0

/-- A record whose value is 2^32 bytes long, on the files of an empty one. -/
def overlongRecord (value : Bytes) : Shared :=
  { emptyRecord with
    log := [⟨0, 0, [], value⟩]
    acks := [⟨0, 0, [([], value)]⟩] }

theorem append_overlong {value : Bytes} (hvalue : value.length = 2 ^ 32) :
    (Shared.new 0 [] {}).append [] value 0 = overlongRecord value := by
  have hempty : ((Shared.new 0 [] {}).part.appendWithTimestamp [] [] 0 {}
      (Fs.start (Shared.new 0 [] {}).dir)).1.toOption = some 0 := by decide +kernel
  unfold overlongRecord emptyRecord Shared.append
  rw [appendWithTimestamp_overlong _ hvalue]
  rcases h : (Shared.new 0 [] {}).part.appendWithTimestamp [] [] 0 {}
    (Fs.start (Shared.new 0 [] {}).dir) with ⟨res, part, fs⟩
  rw [h] at hempty
  cases res with
  | error st => cases hempty
  | ok offset =>
    cases hempty
    rfl

/-- The consumer gets an empty value instead. -/
theorem overlong_value_fetched_empty :
    ∃ s₀ s : Shared, ∃ got cursor, Lived (fun _ _ => True) s₀ ∧ 0 ≤ s₀.part.nextOffset ∧
      Consumes (fun _ _ => True) s₀ 0 got cursor s ∧ got = [⟨0, 0, [], []⟩] ∧
      got ≠ (s.log.drop 0).take got.length := by
  obtain ⟨value, hvalue⟩ : ∃ value : Bytes, value.length = 2 ^ 32 :=
    ⟨List.replicate (2 ^ 32) 0, List.length_replicate⟩
  have hworks : Works (fun _ _ => True) (Shared.new 0 [] {}) (overlongRecord value) :=
    .single ⟨.append [] value 0, trivial, append_overlong hvalue ▸ Work.append [] value 0 rfl⟩
  have hbounds : fetchBounds (fetchOne 0) emptyRecord.part.nextOffset
      emptyRecord.part.earliestOffset = none := by decide +kernel
  have hread : fetchRead (fetchOne 0) emptyRecord.part.nextOffset emptyRecord.part.earliestOffset
      (fetchCall (fetchOne 0) emptyRecord.part (Fs.start emptyRecord.dir)) =
      .ok ⟨1, 1, 0, 1, [⟨0, 0, [], []⟩]⟩ := by decide +kernel
  have hfetch : Fetch (fun _ _ => True) (fun _ _ => True) (fetchOne 0) (overlongRecord value)
      (.ok ⟨1, 1, 0, 1, [⟨0, 0, [], []⟩]⟩) (overlongRecord value) := by
    rw [← hread]
    exact @Fetch.read _ _ _ _ (overlongRecord value) (overlongRecord value) (overlongRecord value)
      .refl .refl hbounds .refl (append_writing ..)
  have hrun := Consumes.ok (@Consumes.start _ _ 0) hworks rfl (by decide) (by decide) hfetch
  refine ⟨_, _, _, _, .new 0 [] {}, UInt64.zero_le, hrun, rfl, ?_⟩
  intro heq
  have hempty : value = [] := congrArg Record.value (List.cons.inj heq).1.symm
  rw [hempty] at hvalue
  cases hvalue

/-! ## The three values of one answer -/

def SharedOp.appends : SharedOp → Bool
  | .append _ _ _ => true
  | .write => true
  | _ => false

abbrev Quiet (s : Shared) (op : SharedOp) : Prop := op.Within s ∧ op.appends = false

theorem Work.log_eq {op : SharedOp} (h : Work s op s') (hop : op.appends = false) :
    s'.log = s.log := by
  cases h with
  | append _ _ _ _ => cases hop
  | lock _ _ _ _ => rfl
  | write _ _ => cases hop
  | unlock _ _ => rfl
  | retain _ _ _ _ _ => rfl

theorem Works.log_eq (h : Works Quiet s s') : s'.log = s.log := by
  induction h with
  | refl => rfl
  | tail _ hstep ih =>
    obtain ⟨op, ⟨-, hop⟩, hwork⟩ := hstep
    exact (hwork.log_eq hop).trans ih

/-- What a response says about itself: it begins where it was asked to, its count
leads from its start to its end, and its end is not beyond the end of the log, so
that the lag is what is left of the log. -/
structure FetchResponse.Consistent (msg : FetchRequest) (resp : FetchResponse) : Prop where
  earliest_le : resp.earliestOffset ≤ msg.startOffset
  count : resp.nextOffset.toNat = msg.startOffset.toNat + (UInt16.ofNat resp.records.length).toNat
  next_le : resp.nextOffset ≤ resp.highWatermark
  lag : (resp.highWatermark - resp.nextOffset).toNat =
    resp.highWatermark.toNat - resp.nextOffset.toNat

theorem FetchResponse.consistent {msg : FetchRequest} {resp : FetchResponse} {k : ℕ}
    (hearly : resp.earliestOffset ≤ msg.startOffset)
    (hnext : resp.nextOffset.toNat = msg.startOffset.toNat + k) (hlen : resp.records.length = k)
    (hk : k < 65536) (hle : resp.nextOffset.toNat ≤ resp.highWatermark.toNat) :
    resp.Consistent msg where
  earliest_le := hearly
  count := by
    rw [hnext, hlen, UInt16.toNat_ofNat', Nat.mod_eq_of_lt hk]
  next_le := UInt64.le_iff_toNat_le.mpr hle
  lag := UInt64.toNat_sub_of_le _ _ (UInt64.le_iff_toNat_le.mpr hle)

/-- **A FETCH is consistent if nothing is appended while it is handled**, that is,
between its call of `next_offset` and its last call. Retention may run, and
anything may have happened before. -/
theorem fetch_consistent_of_quiet {s s' : Shared} (hlived : Lived Limits s) {msg : FetchRequest}
    {resp : FetchResponse} (hfetch : Fetch Limits Quiet msg s (.ok resp) s') :
    resp.Consistent msg := by
  have hquiet : ∀ {a b : Shared}, Works Quiet a b → Works Limits a b :=
    fun h => h.mono fun _ _ hop => hop.1
  generalize hanswer : FetchAnswer.ok resp = answer at hfetch
  cases hfetch with
  | @bounds s₁ _ _ hfirst hsecond hbounds =>
    have hinv₁ := (hlived.works hfirst).sharedInv
    have hinv₂ := (hinv₁.works (hquiet hsecond)).1
    rcases fetchBounds_cases hbounds with ⟨heq, hok⟩ | ⟨-, -, text, herror⟩
    · cases hanswer.trans hok
      refine @FetchResponse.consistent _ _ 0 ?_ (by rw [heq, Nat.add_zero]) rfl (by omega)
        (Nat.le_refl _)
      have hearly := hinv₂.earliest_le
      rw [hsecond.log_eq, ← hinv₁.next_toNat, ← heq] at hearly
      exact UInt64.le_iff_toNat_le.mpr hearly
    · cases hanswer.trans herror
  | @read s₁ s₂ _ hfirst hsecond hbounds hthird hwriting =>
    have hinv₁ := (hlived.works hfirst).sharedInv
    have hinv₂ := (hinv₁.works (hquiet hsecond)).1
    have hinv₃ := (hinv₂.works (hquiet hthird)).1
    obtain ⟨hlt, hearly⟩ := fetchBounds_none hbounds
    have hlog : s'.log = s₁.log := hthird.log_eq.trans hsecond.log_eq
    have hinside : msg.startOffset < s'.part.nextOffset := by
      rw [hinv₃.nextOffset, hlog, ← hinv₁.nextOffset]
      exact hlt
    by_cases hle : s'.part.earliestOffset ≤ msg.startOffset
    · obtain ⟨k, next, -, hk, hkle, hnext, heq⟩ := hinv₃.fetchRead hinside hle
        s₁.part.nextOffset s₂.part.earliestOffset
      cases hanswer.trans heq
      refine FetchResponse.consistent hearly hnext ?_ hk ?_
      · simp only [List.length_take, List.length_drop]
        omega
      · simp only
        rw [hnext, hinv₁.next_toNat, ← hlog]
        exact hkle
    · obtain ⟨text, heq⟩ := fetchRead_outside (UInt64.not_le.mp hle) (UInt64.ne_of_lt hinside)
        s₁.part.nextOffset s₂.part.earliestOffset
      cases hanswer.trans heq

section Example

def fetchAll : FetchRequest := ⟨ascii "t", 0, 0, 1000, 1000⟩

def twoSegments : Shared :=
  ((Shared.new 0 [] { segmentMaxBytes := 30 }).append [1] [10] 5).append [2] [20] 6

def secondSegment : Shared := twoSegments.retain 0 40 false 7

theorem lived_twoSegments : Lived Limits twoSegments := by
  have hfirst : Lived Limits _ := .work (.new 0 [] { segmentMaxBytes := 30 }) (by decide)
    (.append [1] [10] 5 rfl)
  exact hfirst.work (by decide +kernel) (.append [2] [20] 6 (append_writing ..))

/-- A retention pass removes the first segment after the earliest offset was asked for. -/
theorem fetch_consistent_retention :
    twoSegments.part.earliestOffset = 0 ∧ secondSegment.part.earliestOffset = 1 ∧
    FetchResponse.Consistent (fetchOne 1) ⟨2, 2, 0, 1, [⟨1, 6, [2], [20]⟩]⟩ := by
  have hbounds : fetchBounds (fetchOne 1) twoSegments.part.nextOffset
      twoSegments.part.earliestOffset = none := by decide +kernel
  have hread : fetchRead (fetchOne 1) twoSegments.part.nextOffset twoSegments.part.earliestOffset
      (fetchCall (fetchOne 1) secondSegment.part (Fs.start secondSegment.dir)) =
      .ok ⟨2, 2, 0, 1, [⟨1, 6, [2], [20]⟩]⟩ := by decide +kernel
  have hidle : twoSegments.writing = none := (append_writing ..).trans (append_writing ..)
  refine ⟨by decide +kernel, by decide +kernel,
    @fetch_consistent_of_quiet _ secondSegment lived_twoSegments _ _ ?_⟩
  rw [← hread]
  exact .read .refl .refl hbounds
    (.single ⟨.retain 0 40 false 7, ⟨trivial, rfl⟩, .retain 0 40 false 7 hidle⟩) hidle

/-- **A record that comes between the high watermark and the read** is delivered
beyond the high watermark: the lag is 2^64 - 1. -/
theorem fetch_beyond_watermark : ∃ s s' : Shared, ∃ msg resp, Lived Limits s ∧
    Fetch Limits Limits msg s (.ok resp) s' ∧ resp.nextOffset = 2 ∧ resp.highWatermark = 1 ∧
    (resp.highWatermark - resp.nextOffset).toNat = 2 ^ 64 - 1 := by
  have hbounds : fetchBounds fetchAll oneRecord.part.nextOffset oneRecord.part.earliestOffset =
      none := by decide +kernel
  have hread : fetchRead fetchAll oneRecord.part.nextOffset oneRecord.part.earliestOffset
      (fetchCall fetchAll twoRecords.part (Fs.start twoRecords.dir)) =
      .ok ⟨2, 1, 0, 2, [⟨0, 5, [1], [10]⟩, ⟨1, 6, [2], [20]⟩]⟩ := by decide +kernel
  refine ⟨oneRecord, twoRecords, fetchAll, ⟨2, 1, 0, 2, [⟨0, 5, [1], [10]⟩, ⟨1, 6, [2], [20]⟩]⟩,
    lived_oneRecord, ?_, rfl, rfl, by decide⟩
  rw [← hread]
  exact .read .refl .refl hbounds works_twoRecords ((append_writing ..).trans (append_writing ..))

end Example

end StreamForge
