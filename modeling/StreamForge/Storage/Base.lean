import StreamForge.Foundation.Decimal

/-!
# Storage base types

The types every storage component shares: byte strings, the status a call
returns, and the storage configuration. Byte strings stand for both
`std::vector<uint8_t>` and `std::string`, which the broker never decodes as
text. Sizes and file positions are naturals, with `u32` written wherever the
source stores one in a `uint32_t`; offsets are `UInt64` and timestamps
`Int64`, as in the source.
-/

namespace StreamForge

abbrev Bytes := List UInt8

def ascii (s : String) : Bytes := s.toList.map fun c => UInt8.ofNat c.toNat

def toString (n : ℕ) : Bytes := Decimal.toDecimal n

/-! ## Machine arithmetic -/

/-- What is left of a size when it is stored in a `uint32_t`. -/
def u32 (n : ℕ) : ℕ := n % 2 ^ 32

/-- Subtraction of two `uint32_t`. -/
def sub32 (a b : ℕ) : ℕ := u32 (a + (2 ^ 32 - b))

theorem u32_of_lt {n : ℕ} (h : n < 2 ^ 32) : u32 n = n := Nat.mod_eq_of_lt h

theorem u32_lt (n : ℕ) : u32 n < 2 ^ 32 := Nat.mod_lt _ (by norm_num)

theorem sub32_of_le {a b : ℕ} (hba : b ≤ a) (ha : a < 2 ^ 32) : sub32 a b = a - b := by
  unfold sub32 u32
  omega

/-! ## Status -/

inductive StatusCode where
  | OK
  | NotFound
  | InvalidArgument
  | OffsetOutOfRange
  | Corrupt
  | IoError
  | AlreadyExists
  | RecordTooLarge
deriving DecidableEq, Repr

structure Status where
  code : StatusCode
  message : Bytes
deriving DecidableEq, Repr

namespace Status

def OK : Status := ⟨.OK, []⟩
def notFound (msg : Bytes) : Status := ⟨.NotFound, msg⟩
def invalidArgument (msg : Bytes) : Status := ⟨.InvalidArgument, msg⟩
def offsetOutOfRange (msg : Bytes) : Status := ⟨.OffsetOutOfRange, msg⟩
def corrupt (msg : Bytes) : Status := ⟨.Corrupt, msg⟩
def ioError (msg : Bytes) : Status := ⟨.IoError, msg⟩
def alreadyExists (msg : Bytes) : Status := ⟨.AlreadyExists, msg⟩
def recordTooLarge (msg : Bytes) : Status := ⟨.RecordTooLarge, msg⟩

def ok (st : Status) : Bool := st.code == .OK

@[simp] theorem ok_OK : OK.ok = true := rfl

theorem if_not_ok {α : Type*} (a b : α) : (if !OK.ok then a else b) = b := rfl

@[simp] theorem ok_ioError (msg : Bytes) : (ioError msg).ok = false := rfl
@[simp] theorem ok_corrupt (msg : Bytes) : (corrupt msg).ok = false := rfl
@[simp] theorem ok_notFound (msg : Bytes) : (notFound msg).ok = false := rfl
@[simp] theorem ok_recordTooLarge (msg : Bytes) : (recordTooLarge msg).ok = false := rfl

end Status

/-! ## Configuration -/

def maxRecordSize : ℕ := 1024 * 1024

structure StorageConfig where
  dataDir : Bytes := ascii "./data"
  segmentMaxBytes : UInt32 := 64 * 1024 * 1024
  indexIntervalBytes : UInt32 := 4096
  syncOnAppend : Bool := true
  defaultRetentionMs : UInt64 := 604800000
  defaultRetentionBytes : UInt64 := 0
  startupScan : Bytes := ascii "quick"

/-- The scan mode test of `Partition::open_and_recover`. -/
def StorageConfig.fullScan (cfg : StorageConfig) : Bool := cfg.startupScan == ascii "full"

end StreamForge
