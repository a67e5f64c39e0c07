import TxnStore.Bytes.Buffer
import TxnStore.Bytes.Cursor

/-!
# Codecs

A codec writes values of one type as bytes and reads them back. Each encoding shows where it ends,
so that encodings can stand one behind the other. Three codecs take one kind of value each; the
tagged codec takes them all, writes a tag in front of each value, and refuses rows nested too deep
both when writing and when reading.
-/

namespace TxnStore

/-- The codecs that a map can be given for its keys and its values. -/
inductive Codec where
  | int64 | text | bytes | tagged
deriving DecidableEq, Repr

namespace Codec

/-- The name under which the catalog records a codec. -/
def name : Codec → String
  | int64 => "int64"
  | text => "text"
  | bytes => "bytes"
  | tagged => "tagged"

def ofName? (s : String) : Option Codec :=
  if s = "int64" then some int64
  else if s = "text" then some text
  else if s = "bytes" then some bytes
  else if s = "tagged" then some tagged
  else none

@[simp] theorem ofName?_name (c : Codec) : ofName? c.name = some c := by
  cases c <;> rfl

/-! ## The tagged form -/

/-- How many rows may lie around a value in the tagged form. -/
def maxDepth : Nat := 64

mutual
/-- The tagged form of a value that lies under `depth` rows. -/
def encodeTagged (depth : Nat) (v : Value) : Except StoreError (List UInt8) :=
  if maxDepth < depth then .error (.invalid .rowTooDeep)
  else
    match v with
    | .null => .ok [0]
    | .bool false => .ok [1]
    | .bool true => .ok [2]
    | .int n => .ok (3 :: BigEndian.ofInt64 n)
    | .text s => .ok (4 :: Buffer.ofText s)
    | .bytes bs => .ok (5 :: Buffer.ofRun bs)
    | .row columns =>
      match encodeColumns (depth + 1) columns with
      | .ok bs => .ok (6 :: BigEndian.ofUInt32 (UInt32.ofNat columns.length) ++ bs)
      | .error e => .error e

/-- The tagged forms of columns, one behind the other. -/
def encodeColumns (depth : Nat) : List Value → Except StoreError (List UInt8)
  | [] => .ok []
  | v :: rest =>
    match encodeTagged depth v with
    | .error e => .error e
    | .ok bs =>
      match encodeColumns depth rest with
      | .error e => .error e
      | .ok more => .ok (bs ++ more)
end

/-- Reads the tagged form of a value around which `room` more levels of nesting are allowed. -/
def decodeTagged : (room : Nat) → Reader Value
  | 0 => throw (.corruption .rowTooDeep)
  | room + 1 => do
    let tag ← Reader.byte
    match tag.toNat with
    | 0 => return .null
    | 1 => return .bool false
    | 2 => return .bool true
    | 3 => return .int (← Reader.int64)
    | 4 => return .text (← Reader.text)
    | 5 => return .bytes (← Reader.run)
    | 6 =>
      let count ← Reader.uint32
      return .row (← Reader.replicate count.toNat (decodeTagged room))
    | _ => throw (.corruption .unknownTag)

/-! ## All codecs -/

/-- The error of a codec that does not take a kind of value. -/
def mismatch (c : Codec) (v : Value) : StoreError := .typeMismatch c.name v.kind

/-- The bytes of a value. -/
def encode : Codec → Value → Except StoreError (List UInt8)
  | int64, .int n => .ok (BigEndian.ofInt64 n)
  | text, .text s => .ok (Buffer.ofText s)
  | bytes, .bytes bs => .ok (Buffer.ofRun bs)
  | tagged, v => encodeTagged 0 v
  | c, v => .error (c.mismatch v)

def decode : Codec → Reader Value
  | int64 => .int <$> Reader.int64
  | text => .text <$> Reader.text
  | bytes => .bytes <$> Reader.run
  | tagged => decodeTagged (maxDepth + 1)

end Codec

end TxnStore
