import StreamForge.Foundation.Incremental
import StreamForge.Broker.Protocol

/-!
# Frames out of a byte stream

`FrameCodec` and `FrameAssembler`. The assembler keeps the bytes it was given in
one buffer with a read offset; the buffer is cleared when everything is read, and
the part that was read is dropped when it has grown over 64 KiB.

`nextFrame` is the plain length-prefixed parse of a list of bytes. It is a scanner,
so that the frames of a stream do not depend on the pieces in which it arrives, and
taking a frame out of the assembler is one step of it on the bytes that were not
read yet (`extractNextFrame_spec`).
-/

namespace StreamForge

open BigEndian Incremental

/-- `FrameCodec::encode`. The length field of the frame is not used. -/
def FrameCodec.encode (frame : Frame) : Bytes :=
  writeU32 (u32 (headerSize + u32 frame.body.length)) ++ [frame.type] ++
    writeU32 frame.requestId.toNat ++ frame.body

/-! ## The assembler -/

inductive FrameExtractResult where
  | FrameReady
  | NeedMoreData
  | ErrorLengthTooSmall
  | ErrorLengthTooLarge
deriving DecidableEq

theorem nothing_read : 0 ≤ ([] : Bytes).length := Nat.le_refl 0

structure FrameAssembler where
  buffer : Bytes := []
  readOffset : ℕ := 0
  read_le : readOffset ≤ buffer.length := by exact StreamForge.nothing_read

namespace FrameAssembler

def pushBytes (a : FrameAssembler) (data : Bytes) : FrameAssembler where
  buffer := a.buffer ++ data
  readOffset := a.readOffset
  read_le := by
    have := a.read_le
    rw [List.length_append]
    omega

def compactIfNeeded (a : FrameAssembler) : FrameAssembler :=
  if a.readOffset = a.buffer.length then {}
  else if 64 * 1024 < a.readOffset then
    { buffer := a.buffer.drop a.readOffset, readOffset := 0, read_le := Nat.zero_le _ }
  else a

def bufferedBytes (a : FrameAssembler) : ℕ := a.buffer.length - a.readOffset

def hasPartialFrame (a : FrameAssembler) : Bool := decide (0 < a.bufferedBytes)

def advance (a : FrameAssembler) (n : ℕ) (h : n ≤ a.bufferedBytes) : FrameAssembler where
  buffer := a.buffer
  readOffset := a.readOffset + n
  read_le := by
    have := a.read_le
    unfold bufferedBytes at h
    omega

/-- `out` is the frame of the caller, which is only written when a frame is
ready. -/
def extractNextFrame (a : FrameAssembler) (out : Frame) :
    FrameExtractResult × Frame × FrameAssembler :=
  if a.bufferedBytes < 4 then (.NeedMoreData, out, a)
  else
    let length := readU32 (a.buffer.drop a.readOffset)
    if length < headerSize then (.ErrorLengthTooSmall, out, a)
    else if maxFrameLength < length then (.ErrorLengthTooLarge, out, a)
    else
      let total := 4 + length
      if h : a.bufferedBytes < total then (.NeedMoreData, out, a)
      else
        let frame := a.buffer.drop (a.readOffset + 4)
        let bodyLen := length - headerSize
        (.FrameReady,
          { length
            type := frame.headD 0
            requestId := UInt32.ofNat (readU32 (frame.drop 1))
            body := if 0 < bodyLen then (frame.drop headerSize).take bodyLen else [] },
          (a.advance total (Nat.le_of_not_lt h)).compactIfNeeded)

def unread (a : FrameAssembler) : Bytes := a.buffer.drop a.readOffset

@[simp] theorem unread_new : ({} : FrameAssembler).unread = [] := rfl

@[simp] theorem length_unread (a : FrameAssembler) : a.unread.length = a.bufferedBytes := by
  simp [unread, bufferedBytes]

@[simp] theorem unread_pushBytes (a : FrameAssembler) (data : Bytes) :
    (a.pushBytes data).unread = a.unread ++ data :=
  List.drop_append_of_le_length a.read_le

@[simp] theorem unread_advance (a : FrameAssembler) (n : ℕ) (h : n ≤ a.bufferedBytes) :
    (a.advance n h).unread = a.unread.drop n := by
  simp [unread, advance]

@[simp] theorem unread_compactIfNeeded (a : FrameAssembler) :
    a.compactIfNeeded.unread = a.unread := by
  unfold compactIfNeeded
  split
  · rename_i hread
    simp [unread, hread]
  · split
    · rfl
    · rfl

end FrameAssembler

/-! ## The reference parse -/

inductive LengthError where
  | tooSmall
  | tooLarge
deriving DecidableEq

/-- The length field at the front of a byte string, if it is one that no frame
has. -/
def lengthError (length : ℕ) : Option LengthError :=
  if length < headerSize then some .tooSmall
  else if maxFrameLength < length then some .tooLarge
  else none

/-- The type, the request id and `length - 5` bytes of body. -/
def readPayload (length : ℕ) : Bytes → Next UInt8 Frame LengthError
  | type :: i₀ :: i₁ :: i₂ :: i₃ :: rest =>
    .item ⟨length, type, UInt32.ofNat (ofBE [i₀, i₁, i₂, i₃]), rest.take (length - headerSize)⟩
      (rest.drop (length - headerSize))
  | _ => .more

/-- **The length-prefixed parse**: a length and as many bytes of payload. -/
def nextFrame : Bytes → Next UInt8 Frame LengthError
  | l₀ :: l₁ :: l₂ :: l₃ :: payload =>
    let length := ofBE [l₀, l₁, l₂, l₃]
    (lengthError length).elim
      (if payload.length < length then .more else readPayload length payload) .stop
  | _ => .more

theorem nextFrame_cons (l₀ l₁ l₂ l₃ : UInt8) (payload : Bytes) :
    nextFrame (l₀ :: l₁ :: l₂ :: l₃ :: payload) =
      (lengthError (ofBE [l₀, l₁, l₂, l₃])).elim
        (if payload.length < ofBE [l₀, l₁, l₂, l₃] then .more
          else readPayload (ofBE [l₀, l₁, l₂, l₃]) payload) .stop := rfl

theorem lengthError_eq_none {length : ℕ} (h : lengthError length = none) :
    headerSize ≤ length ∧ length ≤ maxFrameLength := by
  unfold lengthError at h
  split at h
  · cases h
  · split at h
    · cases h
    · omega

variable {xs : Bytes}

theorem nextFrame_short (h : xs.length < 4) : nextFrame xs = .more := by
  match xs with
  | [] => rfl
  | [_] => rfl
  | [_, _] => rfl
  | [_, _, _] => rfl
  | _ :: _ :: _ :: _ :: _ =>
    simp only [List.length_cons] at h
    omega

theorem readPayload_eq {length : ℕ} {payload : Bytes} (hmin : headerSize ≤ length)
    (hlen : length ≤ payload.length) : readPayload length payload =
      .item ⟨length, payload.headD 0, UInt32.ofNat (readU32 (payload.drop 1)),
        (payload.drop 5).take (length - headerSize)⟩ (payload.drop length) := by
  unfold headerSize at hmin
  match payload with
  | type :: i₀ :: i₁ :: i₂ :: i₃ :: rest =>
    obtain ⟨n, rfl⟩ := Nat.exists_eq_add_of_le' hmin
    rfl
  | [] | [_] | [_, _] | [_, _, _] | [_, _, _, _] =>
    simp only [List.length_cons, List.length_nil] at hlen
    omega

theorem nextFrame_eq (h : 4 ≤ xs.length) : nextFrame xs =
    (lengthError (readU32 xs)).elim
      (if xs.length < 4 + readU32 xs then .more
        else .item ⟨readU32 xs, (xs.drop 4).headD 0, UInt32.ofNat (readU32 (xs.drop 5)),
          (xs.drop 9).take (readU32 xs - headerSize)⟩ (xs.drop (4 + readU32 xs))) .stop := by
  match xs with
  | [] | [_] | [_, _] | [_, _, _] => simp at h
  | l₀ :: l₁ :: l₂ :: l₃ :: payload =>
    have hread : readU32 (l₀ :: l₁ :: l₂ :: l₃ :: payload) = ofBE [l₀, l₁, l₂, l₃] := rfl
    have hlen : (l₀ :: l₁ :: l₂ :: l₃ :: payload).length = 4 + payload.length := by
      simp only [List.length_cons]
      omega
    have hdrop (n : ℕ) : (l₀ :: l₁ :: l₂ :: l₃ :: payload).drop (4 + n) = payload.drop n := by
      rw [Nat.add_comm]
      rfl
    rw [nextFrame_cons, hread, hlen, hdrop, hdrop 0, hdrop 1, hdrop 5, List.drop_zero]
    generalize ofBE [l₀, l₁, l₂, l₃] = length
    cases herror : lengthError length with
    | some e => rw [Option.elim_some, Option.elim_some]
    | none =>
      rw [Option.elim_none, Option.elim_none]
      by_cases hshort : payload.length < length
      · rw [if_pos hshort, if_pos (Nat.add_lt_add_left hshort 4)]
      · rw [if_neg hshort, if_neg (by omega),
          readPayload_eq (lengthError_eq_none herror).1 (by omega)]

theorem nextFrame_item {rest : Bytes} {f : Frame} (h : nextFrame xs = .item f rest) :
    headerSize ≤ readU32 xs ∧ lengthError (readU32 xs) = none ∧ 4 + readU32 xs ≤ xs.length ∧
      f = ⟨readU32 xs, (xs.drop 4).headD 0, UInt32.ofNat (readU32 (xs.drop 5)),
        (xs.drop 9).take (readU32 xs - headerSize)⟩ ∧
      rest = xs.drop (4 + readU32 xs) := by
  rcases Nat.lt_or_ge xs.length 4 with hshort | hfour
  · rw [nextFrame_short hshort] at h
    cases h
  · rw [nextFrame_eq hfour] at h
    cases herror : lengthError (readU32 xs) with
    | some e =>
      rw [herror] at h
      cases h
    | none =>
      rw [herror, Option.elim_none] at h
      split at h
      · cases h
      · cases h
        exact ⟨(lengthError_eq_none herror).1, rfl, by omega, rfl, rfl⟩

theorem nextFrame_stop {e : LengthError} :
    nextFrame xs = .stop e ↔ 4 ≤ xs.length ∧ lengthError (readU32 xs) = some e := by
  rcases Nat.lt_or_ge xs.length 4 with hshort | hfour
  · rw [nextFrame_short hshort]
    constructor
    · intro h
      cases h
    · omega
  · rw [nextFrame_eq hfour]
    cases herror : lengthError (readU32 xs) with
    | some e' =>
      simp only [Option.elim_some, Next.stop.injEq, Option.some.injEq]
      exact ⟨fun h => ⟨hfour, h⟩, fun h => h.2⟩
    | none =>
      rw [Option.elim_none]
      split <;> simp

/-- **The frames of a stream** as items of a scanner. -/
def frames : Scanner UInt8 Frame LengthError where
  next := nextFrame
  shorter := by
    intro xs rest f h
    obtain ⟨-, -, hlen, -, rfl⟩ := nextFrame_item h
    rw [List.length_drop]
    omega
  item_append := by
    intro xs rest f ys h
    obtain ⟨hmin, herror, hlen, rfl, rfl⟩ := nextFrame_item h
    unfold headerSize at hmin
    rw [nextFrame_eq (by rw [List.length_append]; omega), readU32_append (by omega), herror,
      Option.elim_none, List.length_append, if_neg (by omega),
        List.drop_append_of_le_length (by omega),
      List.drop_append_of_le_length (by omega), List.drop_append_of_le_length (by omega),
      List.drop_append_of_le_length (by omega), readU32_append (by rw [List.length_drop]; omega),
      List.take_append_of_le_length (by rw [List.length_drop]; unfold headerSize; omega)]
    have hne : xs.drop 4 ≠ [] := by
      rw [Ne, List.drop_eq_nil_iff]
      omega
    obtain ⟨b, bs, hb⟩ := List.exists_cons_of_ne_nil hne
    rw [hb]
    rfl
  stop_append := by
    intro xs e ys h
    rw [nextFrame_stop] at h ⊢
    obtain ⟨hlen, herror⟩ := h
    rw [readU32_append hlen, List.length_append]
    exact ⟨by omega, herror⟩

/-! ## Encoded frames -/

def Frame.sized (f : Frame) : Frame := { f with length := headerSize + f.body.length }

theorem length_encode_frame (f : Frame) : (FrameCodec.encode f).length = 9 + f.body.length := by
  simp only [FrameCodec.encode, List.length_append, length_writeU32, List.length_singleton]

theorem nextFrame_encode {f : Frame} (h : f.body.length ≤ maxFrameLength - headerSize)
    (rest : Bytes) : nextFrame (FrameCodec.encode f ++ rest) = .item f.sized rest := by
  unfold maxFrameLength headerSize at h
  have hlen : u32 (headerSize + u32 f.body.length) = headerSize + f.body.length := by
    rw [u32_of_lt (by omega : f.body.length < 2 ^ 32), u32_of_lt (by unfold headerSize; omega)]
  have hencode : FrameCodec.encode f ++ rest = writeU32 (headerSize + f.body.length) ++
      (f.type :: (writeU32 f.requestId.toNat ++ (f.body ++ rest))) := by
    simp [FrameCodec.encode, hlen]
  have hread : readU32 (FrameCodec.encode f ++ rest) = headerSize + f.body.length := by
    rw [hencode]
    exact readU32_writeU32 (by unfold headerSize; omega) _
  have hdrop (n : ℕ) : (FrameCodec.encode f ++ rest).drop (4 + n) =
      (f.type :: (writeU32 f.requestId.toNat ++ (f.body ++ rest))).drop n := by
    rw [hencode, ← List.drop_drop, List.drop_left' (length_writeU32 _)]
  have hbody : (writeU32 f.requestId.toNat ++ (f.body ++ rest)).drop 4 = f.body ++ rest :=
    List.drop_left' (length_writeU32 _)
  have hid : readU32 (writeU32 f.requestId.toNat ++ (f.body ++ rest)) = f.requestId.toNat :=
    readU32_writeU32 f.requestId.toNat_lt _
  have herror : lengthError (headerSize + f.body.length) = none := by
    unfold lengthError maxFrameLength headerSize
    rw [if_neg (by omega), if_neg (by omega)]
  have hrest : (f.type :: (writeU32 f.requestId.toNat ++ (f.body ++ rest))).drop
      (headerSize + f.body.length) = rest := by
    rw [← List.drop_drop]
    show List.drop f.body.length ((writeU32 f.requestId.toNat ++ (f.body ++ rest)).drop 4) = rest
    rw [hbody, List.drop_left]
  rw [nextFrame_eq (by rw [List.length_append, length_encode_frame]; omega), hread, herror,
    Option.elim_none, List.length_append, length_encode_frame,
    if_neg (by unfold headerSize; omega), hdrop, hdrop 0, hdrop 1, hdrop 5, hrest]
  simp only [List.drop_zero, List.headD_cons, List.drop_succ_cons, hid, hbody,
    Nat.add_sub_cancel_left, UInt32.ofNat_toNat, List.take_left, Frame.sized]

/-- **The stream of encoded frames** has exactly these frames and nothing left. -/
theorem scan_encoded {fs : List Frame} (h : ∀ f ∈ fs, f.body.length ≤ maxFrameLength - headerSize) :
    frames.scan (fs.flatMap FrameCodec.encode) = (fs.map Frame.sized, []) := by
  induction fs with
  | nil => exact Scanner.scan_more rfl
  | cons f fs ih =>
    have hnext : frames.next ((f :: fs).flatMap FrameCodec.encode) =
        .item f.sized (fs.flatMap FrameCodec.encode) :=
      nextFrame_encode (h f (List.mem_cons_self ..)) _
    rw [Scanner.scan_item hnext, ih fun g hg => h g (List.mem_cons_of_mem _ hg), List.map_cons]

/-! ## Taking frames out of the assembler -/

def LengthError.result : LengthError → FrameExtractResult
  | .tooSmall => .ErrorLengthTooSmall
  | .tooLarge => .ErrorLengthTooLarge

namespace FrameAssembler

section Extract

variable {a : FrameAssembler} {f : Frame} {rest : Bytes} (out : Frame)

/-- **One call of `extract_next_frame`** is one step of the parse on the bytes that
were not read yet. -/
theorem extractNextFrame_ready (h : nextFrame a.unread = .item f rest) :
    ∃ a', a.extractNextFrame out = (.FrameReady, f, a') ∧ a'.unread = rest := by
  obtain ⟨hmin, herror, hlen, rfl, rfl⟩ := nextFrame_item h
  obtain ⟨-, hmax⟩ := lengthError_eq_none herror
  rw [length_unread] at hlen
  have hread : readU32 (a.buffer.drop a.readOffset) = readU32 a.unread := rfl
  have hdrop (n : ℕ) : (a.buffer.drop (a.readOffset + 4)).drop n = a.unread.drop (4 + n) := by
    simp [unread, Nat.add_assoc]
  have hbody : (if 0 < readU32 a.unread - headerSize then
      ((a.buffer.drop (a.readOffset + 4)).drop headerSize).take (readU32 a.unread - headerSize)
      else []) = (a.unread.drop 9).take (readU32 a.unread - headerSize) := by
    rw [hdrop]
    split
    · rfl
    · rename_i hzero
      rw [Nat.eq_zero_of_not_pos hzero, List.take_zero]
  refine ⟨(a.advance (4 + readU32 a.unread) hlen).compactIfNeeded, ?_, by simp⟩
  unfold extractNextFrame
  simp only [hread, hbody, hdrop 1]
  rw [if_neg (by omega), if_neg (by omega), if_neg (by omega), dif_neg (by omega)]
  simp only [unread, List.drop_drop]

theorem extractNextFrame_more (h : nextFrame a.unread = .more) :
    a.extractNextFrame out = (.NeedMoreData, out, a) ∧ a.bufferedBytes < 4 + maxFrameLength := by
  unfold extractNextFrame
  rcases Nat.lt_or_ge a.unread.length 4 with hshort | hfour
  · rw [length_unread] at hshort
    exact ⟨if_pos hshort, by omega⟩
  · rw [nextFrame_eq hfour] at h
    rw [length_unread] at hfour h
    cases herror : lengthError (readU32 a.unread) with
    | some e =>
      rw [herror] at h
      cases h
    | none =>
      obtain ⟨hmin, hmax⟩ := lengthError_eq_none herror
      rw [herror, Option.elim_none] at h
      split at h
      · rename_i hmore
        have hread : readU32 (a.buffer.drop a.readOffset) = readU32 a.unread := rfl
        simp only [hread]
        rw [if_neg (by omega), if_neg (by omega), if_neg (by omega), dif_pos hmore]
        exact ⟨rfl, by omega⟩
      · cases h

theorem extractNextFrame_stop {e : LengthError} (h : nextFrame a.unread = .stop e) :
    a.extractNextFrame out = (e.result, out, a) := by
  obtain ⟨hfour, herror⟩ := nextFrame_stop.mp h
  rw [length_unread] at hfour
  have hread : readU32 (a.buffer.drop a.readOffset) = readU32 a.unread := rfl
  unfold extractNextFrame
  simp only [hread]
  rw [if_neg (by omega)]
  unfold lengthError at herror
  split at herror
  · rename_i hsmall
    cases herror
    rw [if_pos hsmall]
    rfl
  · rename_i hsmall
    split at herror
    · rename_i hlarge
      cases herror
      rw [if_neg hsmall, if_pos hlarge]
      rfl
    · cases herror

end Extract

end FrameAssembler

/-! ## Reassembly -/

/-- The calls of an assembler, with the frame that `extract_next_frame` is given
to write to. -/
inductive AssemblerCall where
  | push (data : Bytes)
  | extract (out : Frame)

/-- An assembler with what it was given, what was taken out of it and the last
result of `extract_next_frame` if nothing was pushed since. -/
structure Reassembly where
  assembler : FrameAssembler := {}
  pushed : Bytes := []
  extracted : List Frame := []
  last : Option FrameExtractResult := none

namespace Reassembly

def push (r : Reassembly) (data : Bytes) : Reassembly :=
  { r with assembler := r.assembler.pushBytes data, pushed := r.pushed ++ data, last := none }

def extract (r : Reassembly) (out : Frame) : Reassembly :=
  match r.assembler.extractNextFrame out with
  | (res, frame, assembler) =>
    { r with
      assembler
      extracted := if res = .FrameReady then r.extracted ++ [frame] else r.extracted
      last := some res }

def step (r : Reassembly) : AssemblerCall → Reassembly
  | .push data => r.push data
  | .extract out => r.extract out

def run (calls : List AssemblerCall) : Reassembly := calls.foldl step {}

/-- A result of `extract_next_frame` agrees with the bytes at the front. -/
def Agrees (unread : Bytes) : FrameExtractResult → Prop
  | .FrameReady => True
  | .NeedMoreData => nextFrame unread = .more ∧ unread.length < 4 + maxFrameLength
  | .ErrorLengthTooSmall => nextFrame unread = .stop .tooSmall
  | .ErrorLengthTooLarge => nextFrame unread = .stop .tooLarge

structure Inv (r : Reassembly) : Prop where
  consumed : frames.Consumed r.pushed r.extracted r.assembler.unread
  agrees : ∀ res, r.last = some res → Agrees r.assembler.unread res

theorem inv_start : Inv {} where
  consumed := frames.consumed_nil
  agrees := by
    intro res hres
    cases hres

variable {r : Reassembly}

theorem Inv.push (h : Inv r) (data : Bytes) : Inv (r.push data) where
  consumed := by
    show frames.Consumed (r.pushed ++ data) r.extracted (r.assembler.pushBytes data).unread
    rw [FrameAssembler.unread_pushBytes]
    exact h.consumed.arrive data
  agrees := by
    intro res hres
    cases hres

theorem Inv.extract (h : Inv r) (out : Frame) : Inv (r.extract out) := by
  unfold Reassembly.extract
  cases hnext : nextFrame r.assembler.unread with
  | item f rest =>
    obtain ⟨a', heq, hrest⟩ := FrameAssembler.extractNextFrame_ready out hnext
    rw [heq]
    refine ⟨?_, ?_⟩
    · simp only [hrest, if_true]
      exact h.consumed.take hnext
    · intro res hres
      cases hres
      trivial
  | more =>
    obtain ⟨heq, hlen⟩ := FrameAssembler.extractNextFrame_more out hnext
    rw [heq]
    refine ⟨h.consumed, ?_⟩
    intro res hres
    cases hres
    exact ⟨hnext, by rwa [FrameAssembler.length_unread]⟩
  | stop e =>
    rw [FrameAssembler.extractNextFrame_stop out hnext]
    cases e with
    | tooSmall =>
      refine ⟨h.consumed, ?_⟩
      intro res hres
      cases hres
      exact hnext
    | tooLarge =>
      refine ⟨h.consumed, ?_⟩
      intro res hres
      cases hres
      exact hnext

theorem inv_run (calls : List AssemblerCall) : Inv (run calls) := by
  induction calls using List.reverseRecOn with
  | nil => exact inv_start
  | append_singleton calls call ih =>
    unfold run at ih ⊢
    rw [List.foldl_append]
    cases call with
    | push data => exact ih.push data
    | extract out => exact ih.extract out

/-- A result without a frame says that the frames of what was pushed are all out,
and what is at the front of the rest. -/
theorem Inv.done (h : Inv r) {res : FrameExtractResult} (hlast : r.last = some res)
    (hres : res ≠ .FrameReady) : frames.items r.pushed = r.extracted ∧
      frames.left r.pushed = r.assembler.unread := by
  refine h.consumed.done ?_
  intro f rest hnext
  have hagrees := h.agrees res hlast
  have hnext : nextFrame r.assembler.unread = .item f rest := hnext
  cases res with
  | FrameReady => exact hres rfl
  | NeedMoreData =>
    have := hnext.symm.trans hagrees.1
    cases this
  | ErrorLengthTooSmall =>
    have := hnext.symm.trans hagrees
    cases this
  | ErrorLengthTooLarge =>
    have := hnext.symm.trans hagrees
    cases this

/-- The length field at the front of a byte string satisfies `P`. -/
def FrontLength (bytes : Bytes) (P : ℕ → Prop) : Prop := 4 ≤ bytes.length ∧ P (readU32 bytes)

theorem nextFrame_tooSmall {bytes : Bytes} :
    nextFrame bytes = .stop .tooSmall ↔ FrontLength bytes (· < headerSize) := by
  rw [nextFrame_stop]
  refine and_congr_right fun _ => ?_
  unfold lengthError
  split
  · simp [*]
  · split <;> simp [*]

theorem nextFrame_tooLarge {bytes : Bytes} :
    nextFrame bytes = .stop .tooLarge ↔ FrontLength bytes (maxFrameLength < ·) := by
  rw [nextFrame_stop]
  refine and_congr_right fun _ => ?_
  unfold lengthError
  split
  · rename_i hsmall
    have : ¬ maxFrameLength < readU32 bytes := by
      unfold maxFrameLength headerSize at *
      omega
    simp [this]
  · split <;> simp [*]

theorem Inv.result (h : Inv r) {res : FrameExtractResult} (hlast : r.last = some res)
    (hres : res ≠ .FrameReady) :
    (res = .ErrorLengthTooSmall ↔ FrontLength r.assembler.unread (· < headerSize)) ∧
      (res = .ErrorLengthTooLarge ↔ FrontLength r.assembler.unread (maxFrameLength < ·)) ∧
      (res = .NeedMoreData → r.assembler.bufferedBytes < 4 + maxFrameLength) := by
  rw [← nextFrame_tooSmall, ← nextFrame_tooLarge]
  have hagrees := h.agrees res hlast
  cases res with
  | FrameReady => exact absurd rfl hres
  | NeedMoreData =>
    obtain ⟨hnext, hlen⟩ := hagrees
    rw [FrameAssembler.length_unread] at hlen
    simp [hnext, hlen]
  | ErrorLengthTooSmall =>
    have hnext : nextFrame _ = _ := hagrees
    simp [hnext]
  | ErrorLengthTooLarge =>
    have hnext : nextFrame _ = _ := hagrees
    simp [hnext]

end Reassembly

open Reassembly in
/-- **Frame reassembly is independent of chunking.** Whatever was pushed in whatever pieces:
once `extract_next_frame` gives no frame, the frames so far are those of the plain parse of
all the bytes, and the result tells what is at the front of the rest. -/
theorem reassembly_independent_of_chunking (calls : List AssemblerCall) (res : FrameExtractResult)
    (hlast : (run calls).last = some res) (hres : res ≠ .FrameReady) :
    (run calls).extracted = frames.items (run calls).pushed ∧
      (res = .ErrorLengthTooSmall ↔ FrontLength (frames.left (run calls).pushed) (· < headerSize)) ∧
      (res = .ErrorLengthTooLarge ↔
        FrontLength (frames.left (run calls).pushed) (maxFrameLength < ·)) ∧
      (res = .NeedMoreData → (run calls).assembler.bufferedBytes < 4 + maxFrameLength) ∧
      ∀ fs : List Frame, (∀ f ∈ fs, f.body.length ≤ maxFrameLength - headerSize) →
        (run calls).pushed = fs.flatMap FrameCodec.encode →
        (run calls).extracted = fs.map Frame.sized ∧
          ((∀ f ∈ fs, f.length = headerSize + f.body.length) → (run calls).extracted = fs) ∧
          (run calls).assembler.hasPartialFrame = false := by
  have hinv := inv_run calls
  obtain ⟨hitems, hleft⟩ := hinv.done hlast hres
  obtain ⟨hsmall, hlarge, hmore⟩ := hinv.result hlast hres
  rw [hleft]
  refine ⟨hitems.symm, hsmall, hlarge, hmore, ?_⟩
  intro fs hbodies hpushed
  have hscan := scan_encoded hbodies
  have hextracted : (run calls).extracted = fs.map Frame.sized := by
    rw [← hitems, hpushed, Scanner.items, hscan]
  refine ⟨hextracted, ?_, ?_⟩
  · intro hlengths
    rw [hextracted]
    refine (List.map_congr_left ?_).trans (List.map_id fs)
    intro f hf
    unfold Frame.sized
    rw [← hlengths f hf]
    rfl
  · have hempty : (run calls).assembler.unread = [] := by
      rw [← hleft, hpushed, Scanner.left, hscan]
    have hzero : (run calls).assembler.bufferedBytes = 0 := by
      rw [← FrameAssembler.length_unread, hempty, List.length_nil]
    unfold FrameAssembler.hasPartialFrame
    rw [hzero]
    rfl

/-- A PING that arrives in two pieces. -/
def splitPing : List AssemblerCall :=
  let out : Frame := ⟨0, 0, 0, []⟩
  [.push [0, 0, 0, 5, 1], .extract out, .push [0, 0, 0, 7], .extract out, .extract out]

theorem reassembly_of_split_ping :
    (Reassembly.run splitPing).last = some .NeedMoreData ∧
      (Reassembly.run splitPing).extracted = frames.items [0, 0, 0, 5, 1, 0, 0, 0, 7] :=
  ⟨rfl, (reassembly_independent_of_chunking splitPing .NeedMoreData rfl (by decide)).1⟩

end StreamForge
