import TxnStore.Log.Record
import TxnStore.Proofs.Values.Reading

/-!
# Reading redo records back

The redo records of one commit are written one behind the other, each with the codecs of its map.
They are split again without the codecs, and each of them is decoded with the codecs with which it
was written.
-/

namespace TxnStore

open TxnStore.Action Reader

/-- The codecs for keys and for values that the maps have, by the names of the maps. -/
abbrev CodecBook := String → Codec × Codec

/-- A record in a log, with the codecs with which it was written. -/
structure LoggedRecord where
  record : RedoRecord
  codecs : Codec × Codec
deriving DecidableEq, Repr

/-! ## Records whose bodies are encoded -/

namespace RawRecord

/-- The bytes of a record whose body is encoded. -/
def bytes (r : RawRecord) : List UInt8 := Buffer.ofText r.map ++ Buffer.ofRun r.body

/-- The lengths of the name and of the body fit into four bytes each. -/
structure Fits (r : RawRecord) : Prop where
  map : (Text.toBytes r.map).length < UInt32.size
  body : r.body.length < UInt32.size

theorem length_bytes (r : RawRecord) :
    r.bytes.length = 8 + (Text.toBytes r.map).length + r.body.length := by
  rw [bytes, List.length_append, Buffer.ofText, Buffer.length_ofRun, Buffer.length_ofRun]
  omega

/-- A record takes at least the bytes of its two lengths. -/
theorem length_le_flatMap_bytes (rs : List RawRecord) :
    8 * rs.length ≤ (rs.flatMap bytes).length := by
  induction rs with
  | nil => simp
  | cons r rest ih =>
    rw [List.flatMap_cons, List.length_append, length_bytes, List.length_cons]
    omega

/-- Records that stand one behind the other are found one after the other. -/
theorem readAll_flatMap {rs : List RawRecord} (hfits : ∀ r ∈ rs, r.Fits) (offset : Nat)
    {bound : Nat} (hbound : rs.length ≤ bound) :
    Action.runOn (readAll bound) ⟨offset, rs.flatMap bytes⟩ =
      (.ok rs, ⟨offset + (rs.flatMap bytes).length, []⟩) := by
  induction rs generalizing offset bound with
  | nil => cases bound <;> rfl
  | cons r rest ih =>
    obtain ⟨bound, rfl⟩ : ∃ n, bound = n + 1 := ⟨bound - 1, by simp at hbound; omega⟩
    obtain ⟨hmap, hbody⟩ := hfits r List.mem_cons_self
    rw [List.length_cons] at hbound
    have hothers := ih (fun w hw => hfits w (List.mem_cons_of_mem r hw))
      (offset + r.bytes.length) (by omega : rest.length ≤ bound)
    -- A record is not empty, so that the reader goes on.
    have hgoes : ¬ (Cursor.mk offset ((r :: rest).flatMap bytes)).isExhausted = true := by
      rw [Cursor.isExhausted, List.isEmpty_iff]
      intro hnil
      have hzero := congrArg List.length hnil
      rw [List.flatMap_cons, List.length_append, length_bytes, List.length_nil] at hzero
      omega
    -- The name, the body, and then the other records.
    have hfirst := finds_text hmap offset (Buffer.ofRun r.body ++ rest.flatMap bytes)
    have hsecond := finds_run hbody (offset + (Buffer.ofText r.map).length) (rest.flatMap bytes)
    rw [bytes, List.length_append, ← Nat.add_assoc] at hothers
    rw [readAll, runOn_bind, runOn_get]
    simp only [if_neg hgoes]
    rw [runOn_bind, List.flatMap_cons, bytes, List.append_assoc, hfirst]
    simp only [runOn_bind, hsecond, hothers, runOn_pure]
    simp only [List.length_append, Nat.add_assoc]

/-- Records that stand one behind the other are split again. -/
theorem split_flatMap {rs : List RawRecord} (hfits : ∀ r ∈ rs, r.Fits) :
    split (rs.flatMap bytes) = .ok rs := by
  have hcount := length_le_flatMap_bytes rs
  have hall := readAll_flatMap hfits 0 (by omega : rs.length ≤ (rs.flatMap bytes).length)
  rw [split, Reader.read, Cursor.ofBytes, hall]

end RawRecord

namespace RedoRecord

/-- The record as it is found in the bytes: its body is not decoded yet. -/
def raw (codecs : CodecBook) (r : RedoRecord) : RawRecord :=
  match r.encodeBody (codecs r.map).1 (codecs r.map).2 with
  | .ok body => ⟨r.map, body⟩
  | .error _ => ⟨r.map, []⟩

/-- The bytes of records one behind the other. -/
def encodeAll (codecs : CodecBook) : List RedoRecord → Except StoreError (List UInt8)
  | [] => .ok []
  | r :: rest =>
    match r.encode (codecs r.map).1 (codecs r.map).2 with
    | .error e => .error e
    | .ok bs =>
      match encodeAll codecs rest with
      | .error e => .error e
      | .ok more => .ok (bs ++ more)

/-! ## One record -/

variable {r : RedoRecord} {keyCodec valueCodec : Codec} {bs body : List UInt8}

theorem finds_readPayload {payload : Option Value} (hshort : bs.length < UInt32.size)
    (h : encodePayload valueCodec payload = .ok bs) :
    Finds (RawRecord.readPayload valueCodec) bs payload := by
  -- A flag tells whether a value follows.
  cases payload with
  | none =>
    cases h
    exact (finds_byte 1).bind (Finds.pure none)
  | some v =>
    cases hv : valueCodec.encode v with
    | error err => simp [encodePayload, hv] at h
    | ok value =>
      simp only [encodePayload, hv] at h
      cases h
      rw [List.length_cons] at hshort
      exact (finds_byte 0).bind ((Codec.finds_encode (by omega) hv).map some)

/-- The body of a record tells its key and its payload. -/
theorem decode_encodeBody (h : r.encodeBody keyCodec valueCodec = .ok body) :
    (RawRecord.mk r.map body).decode keyCodec valueCodec = .ok (r.key, r.payload) := by
  -- The key and the payload are encoded, and they fit together.
  unfold encodeBody at h
  cases hkey : keyCodec.encode r.key with
  | error err => simp [hkey] at h
  | ok key =>
    cases hpayload : encodePayload valueCodec r.payload with
    | error err => simp [hkey, hpayload] at h
    | ok payload =>
      simp only [hkey, hpayload] at h
      split at h
      · cases h
        have hfirst := Codec.finds_encode (by omega) hkey 0 payload
        -- The payload follows the key right away, and nothing follows the payload.
        have hsecond := finds_readPayload (by omega) hpayload (0 + key.length) []
        rw [List.append_nil] at hsecond
        rw [RawRecord.decode, Reader.read, Cursor.ofBytes, RawRecord.readBody, runOn_bind, hfirst]
        simp only [runOn_bind, hsecond, runOn_get]
        rfl
      · cases h

theorem decode_raw {codecs : CodecBook} {bs : List UInt8}
    (h : r.encode (codecs r.map).1 (codecs r.map).2 = .ok bs) :
    (r.raw codecs).decode (codecs r.map).1 (codecs r.map).2 = .ok (r.key, r.payload) := by
  unfold encode at h
  cases hbody : r.encodeBody (codecs r.map).1 (codecs r.map).2 with
  | error err => simp [hbody] at h
  | ok body =>
    have hraw : r.raw codecs = ⟨r.map, body⟩ := by simp only [raw, hbody]
    rw [hraw]
    exact decode_encodeBody hbody

/-- A record is its name and its body, each behind its length. -/
theorem eq_of_encode {codecs : CodecBook}
    (h : r.encode (codecs r.map).1 (codecs r.map).2 = .ok bs) :
    bs = Buffer.ofText r.map ++ Buffer.ofRun (r.raw codecs).body := by
  unfold encode at h
  cases hbody : r.encodeBody (codecs r.map).1 (codecs r.map).2 with
  | error err => simp [hbody] at h
  | ok body =>
    have hraw : r.raw codecs = ⟨r.map, body⟩ := by simp only [raw, hbody]
    simp only [hbody] at h
    cases h
    rw [hraw]

@[simp] theorem raw_map (codecs : CodecBook) (r : RedoRecord) : (r.raw codecs).map = r.map := by
  unfold raw
  split <;> rfl

/-! ## Many records -/

theorem encodeAll_cons {codecs : CodecBook} {rest : List RedoRecord} {bs : List UInt8}
    (h : encodeAll codecs (r :: rest) = .ok bs) :
    ∃ head more, r.encode (codecs r.map).1 (codecs r.map).2 = .ok head ∧
      encodeAll codecs rest = .ok more ∧ bs = head ++ more := by
  -- All records are encoded only if each one is.
  unfold encodeAll at h
  split at h
  · cases h
  · rename_i head hhead
    split at h
    · cases h
    · rename_i more hmore
      cases h
      exact ⟨head, more, hhead, hmore, rfl⟩

/-- Encoded records are the bytes of their undecoded forms. -/
theorem encodeAll_eq {codecs : CodecBook} {rs : List RedoRecord} (h : encodeAll codecs rs = .ok bs) :
    bs = (rs.map (raw codecs)).flatMap RawRecord.bytes := by
  induction rs generalizing bs with
  | nil =>
    cases h
    rfl
  | cons r rest ih =>
    obtain ⟨head, more, hhead, hmore, rfl⟩ := encodeAll_cons h
    rw [eq_of_encode hhead, ih hmore, List.map_cons, List.flatMap_cons, RawRecord.bytes, raw_map]

theorem length_le_encodeAll {codecs : CodecBook} {rs : List RedoRecord}
    (h : encodeAll codecs rs = .ok bs) : 8 * rs.length ≤ bs.length := by
  have hcount := RawRecord.length_le_flatMap_bytes (rs.map (raw codecs))
  rwa [← encodeAll_eq h, List.length_map] at hcount

/-- No name and no body is longer than the whole. -/
theorem fits_of_encodeAll {codecs : CodecBook} {rs : List RedoRecord}
    (hshort : bs.length < UInt32.size) (h : encodeAll codecs rs = .ok bs) :
    ∀ w ∈ rs.map (raw codecs), w.Fits := by
  rw [encodeAll_eq h] at hshort
  intro w hw
  obtain ⟨before, after, hsplit⟩ := List.append_of_mem hw
  rw [hsplit, List.flatMap_append, List.flatMap_cons, List.length_append, List.length_append,
    RawRecord.length_bytes] at hshort
  exact ⟨by omega, by omega⟩

/-- A payload that is not too long is split into its records. -/
theorem split_encodeAll {codecs : CodecBook} {rs : List RedoRecord}
    (hshort : bs.length < UInt32.size)
    (h : encodeAll codecs rs = .ok bs) : RawRecord.split bs = .ok (rs.map (raw codecs)) := by
  have hfits := fits_of_encodeAll hshort h
  rw [encodeAll_eq h]
  exact RawRecord.split_flatMap hfits

end RedoRecord

end TxnStore
