import TxnStore.Log.Header
import TxnStore.Log.Record

/-!
# Frames

A frame holds the redo records of one commit. It starts with 32 bytes: its number, the transaction,
the length of the payload, the checksum of the payload, four zero bytes, and the checksum of all
that. The payload follows. The payload's checksum also covers the log's salt and the transaction, so
that a payload counts only in its own log and for its own transaction.
-/

namespace TxnStore

/-- The redo records of one commit, as stored. -/
structure Frame where
  lsn : Lsn
  txn : TxnId
  payload : List UInt8
deriving DecidableEq, Repr

/-- The header of a frame, read back. -/
structure FrameHeader where
  lsn : Lsn
  txn : TxnId
  length : UInt32
  checksum : UInt32
deriving DecidableEq, Repr

namespace FrameHeader

/-- The number of bytes of a frame's header. -/
def size : Nat := 32

/-- The bytes that the header's checksum covers. -/
def guarded (h : FrameHeader) : List UInt8 :=
  BigEndian.ofUInt64 h.lsn.val ++ BigEndian.ofUInt64 h.txn.val ++ BigEndian.ofUInt32 h.length ++
    BigEndian.ofUInt32 h.checksum ++ [0, 0, 0, 0]

/-- The bytes of a frame's header. -/
def encode (h : FrameHeader) : List UInt8 :=
  h.guarded ++ BigEndian.ofUInt32 (Crc32.ofBytes h.guarded)

/-- The header whose 32 bytes are given, if its checksum is right. -/
def decode (bs : List UInt8) : Option FrameHeader :=
  if BigEndian.toUInt32 (LogHeader.slice bs 28 4) = Crc32.ofBytes (LogHeader.slice bs 0 28) then
    some
      { lsn := ⟨BigEndian.toUInt64 (LogHeader.slice bs 0 8)⟩
        txn := ⟨BigEndian.toUInt64 (LogHeader.slice bs 8 8)⟩
        length := BigEndian.toUInt32 (LogHeader.slice bs 16 4)
        checksum := BigEndian.toUInt32 (LogHeader.slice bs 20 4) }
  else none

end FrameHeader

namespace Frame

/-- The header of a frame in a log with a given salt. -/
def header (f : Frame) (salt : UInt64) : FrameHeader :=
  { lsn := f.lsn
    txn := f.txn
    length := UInt32.ofNat f.payload.length
    checksum := Crc32.ofFrame salt f.txn.val f.payload }

/-- The bytes of a frame in a log with a given salt. -/
def encode (f : Frame) (salt : UInt64) : List UInt8 := (f.header salt).encode ++ f.payload

def debugText (f : Frame) : String :=
  "RedoFrame \x7b lsn: Lsn(" ++ f.lsn.text ++ "), txn: TxnId(" ++ toString f.txn.val.toNat ++
    "), payload_len: " ++ toString f.payload.length ++ " \x7d"

def records (f : Frame) : Except StoreError (List RawRecord) := RawRecord.split f.payload

end Frame

end TxnStore
