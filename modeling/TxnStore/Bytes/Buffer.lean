import TxnStore.Bytes.BigEndian
import TxnStore.Bytes.Text

/-!
# Writing length-prefixed runs

A run of bytes is written behind its length of four bytes, and a text as the run of its UTF-8 bytes.
A length that is known only later is written in place of four bytes that hold its room.
-/

namespace TxnStore.Buffer

/-- A run of bytes behind its length. -/
def ofRun (bs : List UInt8) : List UInt8 := BigEndian.ofUInt32 (UInt32.ofNat bs.length) ++ bs

/-- A text behind its length. -/
def ofText (s : String) : List UInt8 := ofRun (Text.toBytes s)

/-- A place that does not leave room for four bytes in a buffer. -/
structure NoRoom where
  position : Nat
  size : Nat
deriving DecidableEq, Repr

/-- The wording of a place without room. -/
def NoRoom.message (e : NoRoom) : String :=
  "patch position " ++ toString e.position ++ " beyond buffer of " ++ toString e.size ++ " bytes"

/-- Writes a word over the four bytes at a position. -/
def patch (bs : List UInt8) (position : Nat) (v : UInt32) : Except NoRoom (List UInt8) :=
  if position + 4 ≤ bs.length then
    .ok (bs.take position ++ BigEndian.ofUInt32 v ++ bs.drop (position + 4))
  else
    .error ⟨position, bs.length⟩

end TxnStore.Buffer
