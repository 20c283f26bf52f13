import Tabula.Types
import Mathlib.Logic.Function.Iterate

/-!
# WAL entries

`WalEntry::encode` and `WalEntry::decode` of `src/wal.rs`, with the CRC-32 that
closes every entry. The decoder is written with the checks, the slices and the
`usize` additions of the source in their order, so that a slice out of range or
an overflow would show up as `Tabula.Fault.panic`.
-/

namespace Tabula

open LittleEndian

/-- One logged write. -/
inductive WalEntry where
  | put (key : Key) (value : Value) : WalEntry
  | delete (key : Key) : WalEntry
  deriving DecidableEq, Repr

inductive WalError where
  /-- Not enough bytes for the entry's declared shape, or no such shape. -/
  | error : WalError
  /-- The bytes are there but do not have the stored checksum. -/
  | checksum : WalError
  deriving DecidableEq, Repr

/-! ### The checksum -/

/-- One bit step of the CRC register. -/
def crc32Shift (crc : UInt32) : UInt32 :=
  let mask : UInt32 := if crc &&& 1 ≠ 0 then 0xEDB88320 else 0
  (crc >>> 1) ^^^ mask

/-- One byte of input. -/
def crc32Byte (crc : UInt32) (byte : UInt8) : UInt32 := crc32Shift^[8] (crc ^^^ byte.toUInt32)

def crc32 (data : Bytes) : UInt32 := ~~~(data.foldl crc32Byte 0xFFFFFFFF)

namespace WalEntry

/-- The key a logged write is about. -/
def key : WalEntry → Key
  | put k _ => k
  | delete k => k

/-- The raw value the write leaves behind: a deletion leaves a tombstone. -/
def raw : WalEntry → Value
  | put _ v => v
  | delete _ => tombstone

/-- Key and value fit the length fields. -/
def IsShort : WalEntry → Prop
  | put k v => Short k ∧ Short v
  | delete k => Short k

instance (e : WalEntry) : Decidable e.IsShort := by
  cases e <;> simp only [IsShort] <;> infer_instance

/-! ### Encoding -/

/-- What the checksum covers: the op tag, the lengths, the key and the value. A
length is narrowed to 32 bits before it is written. -/
def body : WalEntry → Bytes
  | put k v => [0] ++ leBytes 4 k.length ++ k ++ leBytes 4 v.length ++ v
  | delete k => [1] ++ leBytes 4 k.length ++ k

def encode (e : WalEntry) : Bytes := e.body ++ leBytes 4 (crc32 e.body).toNat

theorem length_encode (e : WalEntry) : e.encode.length = e.body.length + 4 := by
  rw [encode, List.length_append, length_leBytes]

theorem length_body_put (k v : Bytes) : (put k v).body.length = 9 + k.length + v.length := by
  simp [body]
  omega

theorem length_body_delete (k : Bytes) : (delete k).body.length = 5 + k.length := by
  simp [body]
  omega

theorem encode_ne_nil (e : WalEntry) : e.encode ≠ [] := by
  have h := e.length_encode
  intro he
  rw [he] at h
  simp at h

/-! ### Decoding -/

/-- `u32::from_le_bytes(code[i..i + 4].try_into().unwrap()) as usize`. -/
def readU32 (code : Bytes) (i : ℕ) : Res WalError ℕ := do
  let j ← usizeAdd i 4
  let field ← slice code i j
  return leValue field

/-- The `0u8` arm: the entry and the length of its body. -/
def decodePut (code : Bytes) : Res WalError (WalEntry × ℕ) :=
  if code.length < 5 then .error (.err .error)
  else do
    let keyLen ← readU32 code 1
    let valLenStart ← usizeAdd 5 keyLen
    let valLenEnd ← usizeAdd valLenStart 4
    if code.length < valLenEnd then .error (.err .error)
    else do
      let k ← slice code 5 valLenStart
      let valLen ← readU32 code valLenStart
      let valStart ← usizeAdd valLenStart 4
      let bodyLen ← usizeAdd valStart valLen
      if code.length < bodyLen then .error (.err .error)
      else do
        let v ← slice code valStart bodyLen
        return (put k v, bodyLen)

/-- The `1u8` arm. -/
def decodeDelete (code : Bytes) : Res WalError (WalEntry × ℕ) :=
  if code.length < 5 then .error (.err .error)
  else do
    let keyLen ← readU32 code 1
    let bodyLen ← usizeAdd 5 keyLen
    if code.length < bodyLen then .error (.err .error)
    else do
      let k ← slice code 5 bodyLen
      return (delete k, bodyLen)

/-- The entry the bytes begin with, before its checksum is looked at. -/
def decodeBody (code : Bytes) : Res WalError (WalEntry × ℕ) :=
  match code.head? with
  | none => .error (.err .error)
  | some op =>
      if op = 0 then decodePut code
      else if op = 1 then decodeDelete code
      else .error (.err .error)

/-- The entry the bytes begin with, and how many of them it takes. -/
def decode (code : Bytes) : Res WalError (WalEntry × ℕ) := do
  let (entry, bodyLen) ← decodeBody code
  let total ← usizeAdd bodyLen 4
  if code.length < total then .error (.err .error)
  else do
    let storedChecksum ← readU32 code bodyLen
    let checked ← slice code 0 bodyLen
    if (crc32 checked).toNat ≠ storedChecksum then .error (.err .checksum)
    else return (entry, total)

end WalEntry

end Tabula
