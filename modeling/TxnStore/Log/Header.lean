import TxnStore.Bytes.Crc32
import TxnStore.Error

/-!
# The header of a log

A log starts with 32 bytes: a mark, the version of the format, two zero bytes, the salt that guards
the payloads, the number of the first frame, four zero bytes, and the checksum of all that.
-/

namespace TxnStore

/-- What a log fixes for all its frames. -/
structure LogHeader where
  salt : UInt64
  startLsn : Lsn
deriving DecidableEq, Repr

namespace LogHeader

/-- The number of bytes of a header. -/
def size : Nat := 32

/-- The mark of a log. -/
def magic : List UInt8 := [0x54, 0x4D, 0x52, 0x4C]

/-- The version of the format. -/
def version : UInt16 := 1

/-- The bytes that the checksum covers. -/
def guarded (h : LogHeader) : List UInt8 :=
  magic ++ BigEndian.ofUInt16 version ++ [0, 0] ++ BigEndian.ofUInt64 h.salt ++
    BigEndian.ofUInt64 h.startLsn.val ++ [0, 0, 0, 0]

/-- The bytes of a header. -/
def encode (h : LogHeader) : List UInt8 :=
  h.guarded ++ BigEndian.ofUInt32 (Crc32.ofBytes h.guarded)

def slice (bs : List UInt8) (offset n : Nat) : List UInt8 := (bs.drop offset).take n

/-- The header whose 32 bytes are given. -/
def decode (bs : List UInt8) : Except StoreError LogHeader :=
  if slice bs 0 4 ≠ magic then .error (.corruption .logMagic)
  else if BigEndian.toUInt16 (slice bs 4 2) ≠ version then .error (.corruption .logVersion)
  else if slice bs 6 2 ≠ [0, 0] ∨ slice bs 24 4 ≠ [0, 0, 0, 0] then
    .error (.corruption .logReserved)
  else if BigEndian.toUInt32 (slice bs 28 4) ≠ Crc32.ofBytes (slice bs 0 28) then
    .error (.corruption .logChecksum)
  else .ok ⟨BigEndian.toUInt64 (slice bs 8 8), ⟨BigEndian.toUInt64 (slice bs 16 8)⟩⟩

end LogHeader

end TxnStore
