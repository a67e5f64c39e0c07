import TxnStore.Bytes.BigEndian

/-!
# Checksums

CRC-32 with the reflected polynomial `EDB88320`: the register starts with all bits set, each byte is
added at its low end and shifted out bit by bit, and the complement of the register is the sum. The
register after one run of bytes is where the next run goes on, so a sum may be taken in parts.
-/

namespace TxnStore

/-- The register of a checksum that is being taken. -/
structure Crc32 where
  register : UInt32
deriving DecidableEq, Repr

namespace Crc32

/-- The reflected generator polynomial. -/
def polynomial : UInt32 := 0xEDB88320

def shiftBit (r : UInt32) : UInt32 :=
  if r &&& 1 = 1 then (r >>> 1) ^^^ polynomial else r >>> 1

/-- Shifts eight bits out of the register. -/
def shiftByte (r : UInt32) : UInt32 :=
  shiftBit (shiftBit (shiftBit (shiftBit (shiftBit (shiftBit (shiftBit (shiftBit r)))))))

/-- The register before any byte. -/
def start : Crc32 := ⟨0xFFFFFFFF⟩

def addByte (c : Crc32) (b : UInt8) : Crc32 := ⟨shiftByte (c.register ^^^ b.toUInt32)⟩

/-- Adds a run of bytes. -/
def add (c : Crc32) (bs : List UInt8) : Crc32 := bs.foldl addByte c

/-- The sum of the bytes added so far. -/
def sum (c : Crc32) : UInt32 := c.register ^^^ 0xFFFFFFFF

/-- The sum of one run of bytes. -/
def ofBytes (bs : List UInt8) : UInt32 := (start.add bs).sum

/-- The sum of the parts in order. -/
def ofParts (parts : List (List UInt8)) : UInt32 := (parts.foldl add start).sum

/-- The register as it stands and after each of some parts. -/
def running (c : Crc32) : List (List UInt8) → List Crc32
  | [] => [c]
  | p :: ps => c :: running (c.add p) ps

/-- The sum that guards a frame's payload, over the log's salt, the transaction and the payload. -/
def ofFrame (salt txn : UInt64) (payload : List UInt8) : UInt32 :=
  ofBytes (BigEndian.ofUInt64 salt ++ BigEndian.ofUInt64 txn ++ payload)

end Crc32

end TxnStore
