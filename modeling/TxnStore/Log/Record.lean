import TxnStore.Value.Codec

/-!
# Redo records

A redo record says what one key of one map holds after a commit. It is stored as the name of the map
behind its length, then the body behind its length: the key, a flag, and, unless the flag says that
the key is deleted, the payload. A reader can so step over records of maps that it does not know.
-/

namespace TxnStore

/-- What one key of a map holds after a commit; no payload is a delete. -/
structure RedoRecord where
  map : String
  key : Value
  payload : Option Value
deriving DecidableEq, Repr

/-- A record whose body is still encoded. -/
structure RawRecord where
  map : String
  body : List UInt8
deriving DecidableEq, Repr

namespace RedoRecord

/-- The flag and the payload behind the key. -/
def encodePayload (codec : Codec) : Option Value → Except StoreError (List UInt8)
  | none => .ok [1]
  | some v =>
    match codec.encode v with
    | .ok bs => .ok (0 :: bs)
    | .error e => .error e

def encodeBody (r : RedoRecord) (keyCodec valueCodec : Codec) : Except StoreError (List UInt8) :=
  match keyCodec.encode r.key with
  | .error e => .error e
  | .ok key =>
    match encodePayload valueCodec r.payload with
    | .error e => .error e
    | .ok payload =>
      if key.length + payload.length < UInt32.size then .ok (key ++ payload)
      else .error (.invalid .recordTooLong)

/-- The bytes of a record. -/
def encode (r : RedoRecord) (keyCodec valueCodec : Codec) : Except StoreError (List UInt8) :=
  match r.encodeBody keyCodec valueCodec with
  | .ok body => .ok (Buffer.ofText r.map ++ Buffer.ofRun body)
  | .error e => .error e

end RedoRecord

namespace RawRecord

/-- Reads the flag and the payload behind a key. -/
def readPayload (codec : Codec) : Reader (Option Value) := do
  let flag ← Reader.byte
  match flag.toNat with
  | 0 => some <$> codec.decode
  | 1 => return none
  | _ => throw (.corruption .recordFlag)

def readBody (keyCodec valueCodec : Codec) : Reader (Value × Option Value) := do
  let key ← keyCodec.decode
  let payload ← readPayload valueCodec
  if (← get).isExhausted then return (key, payload)
  throw (.corruption .recordTrailing)

def decode (r : RawRecord) (keyCodec valueCodec : Codec) :
    Except StoreError (Value × Option Value) :=
  (readBody keyCodec valueCodec).read r.body

/-- Reads records to the end of the bytes, at most `bound` of them. -/
def readAll : (bound : Nat) → Reader (List RawRecord)
  | 0 => return []
  | bound + 1 => do
    if (← get).isExhausted then return []
    let map ← Reader.text
    let body ← Reader.run
    let rest ← readAll bound
    return ⟨map, body⟩ :: rest

/-- The records of a payload. No payload has more records than bytes. -/
def split (payload : List UInt8) : Except StoreError (List RawRecord) :=
  (readAll payload.length).read payload

end RawRecord

end TxnStore
