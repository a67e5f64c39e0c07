import TxnStore.Log.Record

/-!
# Writing redo records into a buffer

Records are written at the end of a buffer, one behind the other. The length of a body stands in
front of it but is known only once the body is written, so that room is kept for it and filled in
afterwards. A writer that fails may leave a part of what it was to write; who needs the buffer as it
was cuts it back.
-/

namespace TxnStore

/-- A computation that writes at the end of a buffer. -/
abbrev Writer (α : Type) := Action (List UInt8) α

namespace Writer

def append (bs : List UInt8) : Writer Unit := modify fun out => out ++ bs

/-- Cuts the buffer back to where it was if the writing fails. -/
def restoring {α : Type} (w : Writer α) : Writer α := do
  let start := (← get).length
  match ← w.attempt with
  | .ok a => return a
  | .error err =>
    modify fun out => out.take start
    throw err

end Writer

namespace Codec

mutual
/-- Writes the tagged form of a value that lies under `depth` rows. -/
def putTagged (depth : Nat) (v : Value) : Writer Unit :=
  if maxDepth < depth then throw (.invalid .rowTooDeep)
  else
    match v with
    | .null => Writer.append [0]
    | .bool false => Writer.append [1]
    | .bool true => Writer.append [2]
    | .int n => Writer.append (3 :: BigEndian.ofInt64 n)
    | .text s => Writer.append (4 :: Buffer.ofText s)
    | .bytes bs => Writer.append (5 :: Buffer.ofRun bs)
    | .row columns => do
      Writer.append (6 :: BigEndian.ofUInt32 (UInt32.ofNat columns.length))
      putColumns (depth + 1) columns

/-- Writes the tagged forms of columns, one behind the other. -/
def putColumns (depth : Nat) : List Value → Writer Unit
  | [] => return ()
  | v :: rest => do
    putTagged depth v
    putColumns depth rest
end

def put : Codec → Value → Writer Unit
  | int64, .int n => Writer.append (BigEndian.ofInt64 n)
  | text, .text s => Writer.append (Buffer.ofText s)
  | bytes, .bytes bs => Writer.append (Buffer.ofRun bs)
  | tagged, v => (putTagged 0 v).restoring
  | c, v => throw (c.mismatch v)

end Codec

namespace RedoRecord

/-- Writes the flag and the payload behind the key. -/
def putPayload (codec : Codec) : Option Value → Writer Unit
  | none => Writer.append [1]
  | some v => do
    Writer.append [0]
    codec.put v

def putBody (r : RedoRecord) (keyCodec valueCodec : Codec) : Writer Unit := do
  keyCodec.put r.key
  putPayload valueCodec r.payload

/-- Fills the length of what stands behind a position into the room in front of it. -/
def putLength (room start : Nat) : Writer Unit := do
  let out ← get
  let length := out.length - start
  if UInt32.size ≤ length then throw (.invalid .recordTooLong)
  match Buffer.patch out room (UInt32.ofNat length) with
  | .ok out => set out
  -- This does not happen, since the room is in the buffer.
  | .error _ => return ()

/-- Writes something behind its length. -/
def putSized (w : Writer Unit) : Writer Unit := do
  let room := (← get).length
  Writer.append (BigEndian.ofUInt32 0)
  let start := (← get).length
  w
  putLength room start

/-- Writes the name of the map and the body, each behind its length. -/
def putParts (r : RedoRecord) (keyCodec valueCodec : Codec) : Writer Unit := do
  Writer.append (Buffer.ofText r.map)
  putSized (r.putBody keyCodec valueCodec)

/-- Writes a record and says how many bytes it takes. -/
def write (r : RedoRecord) (keyCodec valueCodec : Codec) : Writer Nat :=
  Writer.restoring do
    let start := (← get).length
    r.putParts keyCodec valueCodec
    return (← get).length - start

end RedoRecord

end TxnStore
