import TxnStore.Log.RecordWriter
import TxnStore.Proofs.Values.Records

/-!
# Writing redo records one behind the other

A writer writes the bytes of a value, or it fails and has written something behind the buffer, which
cutting the buffer back removes. Records that were written into one buffer, each with codecs of its
own, are found there again in their order, without those that could not be written. There is no
limit to the length of the buffer, only to that of each name and each body.
-/

namespace TxnStore

open TxnStore.Action Reader

/-! ## Writers and what they write -/

namespace Writer

/-- The writer writes the given bytes, or it fails with the given error and has written some bytes or
other, behind whatever the buffer holds. -/
def Writes (w : Writer Unit) (r : Except StoreError (List UInt8)) : Prop :=
  ∀ out, ∃ more, w.runOn out = (r.map fun _ => (), out ++ more) ∧ ∀ bs, r = .ok bs → more = bs

variable {w w' : Writer Unit} {r r' : Except StoreError (List UInt8)}

theorem writes_append (bs : List UInt8) : Writes (append bs) (.ok bs) := by
  intro out
  exact ⟨bs, rfl, fun _ h => Except.ok.inj h⟩

theorem writes_throw (err : StoreError) : Writes (throw err) (.error err) := by
  intro out
  refine ⟨[], ?_, fun _ h => by cases h⟩
  rw [List.append_nil]
  rfl

/-- The bytes of two encodings one behind the other, or the first error. -/
def both (r r' : Except StoreError (List UInt8)) : Except StoreError (List UInt8) :=
  match r with
  | .error err => .error err
  | .ok bs =>
    match r' with
    | .error err => .error err
    | .ok more => .ok (bs ++ more)

/-- Two writers one after the other. -/
theorem Writes.bind (h : Writes w r) (h' : Writes w' r') : Writes (do w; w') (both r r') := by
  intro out
  obtain ⟨bs, hrun, hbs⟩ := h out
  -- The first part may fail, and then the second one is not run.
  cases r with
  | error err =>
    refine ⟨bs, ?_, fun _ h => by cases h⟩
    rw [runOn_bind, hrun]
    rfl
  | ok first =>
    obtain rfl : bs = first := hbs first rfl
    obtain ⟨more, hrun', hmore⟩ := h' (out ++ bs)
    refine ⟨bs ++ more, ?_, ?_⟩
    · rw [runOn_bind, hrun]
      simp only [Except.map]
      rw [hrun', List.append_assoc]
      cases r' <;> rfl
    · intro bs' hbs'
      -- Both parts have written, or the second one has failed.
      cases r' with
      | error err => cases hbs'
      | ok second =>
        obtain rfl : more = second := hmore second rfl
        exact Except.ok.inj hbs'

theorem Writes.ok {bs : List UInt8} (h : Writes w (.ok bs)) (out : List UInt8) :
    w.runOn out = (.ok (), out ++ bs) := by
  obtain ⟨more, hrun, hmore⟩ := h out
  rw [hrun, hmore bs rfl]
  rfl

theorem runOn_restoring {α : Type} (w : Writer α) (out : List UInt8) :
    w.restoring.runOn out =
      match w.runOn out with
      | (.ok a, out') => (.ok a, out')
      | (.error err, out') => (.error err, out'.take out.length) := by
  rw [Writer.restoring, runOn_bind, runOn_get]
  simp only [runOn_bind, runOn_attempt]
  rcases w.runOn out with ⟨err | a, out'⟩ <;> rfl

/-- A writer that is cut back writes the same. -/
theorem Writes.restoring (h : Writes w r) : Writes w.restoring r := by
  intro out
  obtain ⟨more, hrun, hmore⟩ := h out
  rw [runOn_restoring, hrun]
  -- A failure takes back what was written.
  cases r with
  | ok bs => exact ⟨more, rfl, hmore⟩
  | error err =>
    refine ⟨[], ?_, fun _ hbs => by cases hbs⟩
    rw [List.append_nil]
    simp only [Except.map, List.take_left]

end Writer

/-! ## What codecs write -/

namespace Codec

open Writer

mutual
/-- The tagged form of a value is written behind whatever the buffer holds. -/
theorem writes_putTagged (v : Value) (depth : Nat) :
    Writes (putTagged depth v) (encodeTagged depth v) := by
  unfold putTagged encodeTagged
  split
  · exact writes_throw _
  · -- Only a row writes more than one run.
    match v with
    | .null => exact writes_append _
    | .bool false => exact writes_append _
    | .bool true => exact writes_append _
    | .int n => exact writes_append _
    | .text s => exact writes_append _
    | .bytes bs => exact writes_append _
    | .row columns =>
      have hboth := (writes_append (6 :: BigEndian.ofUInt32 (UInt32.ofNat columns.length))).bind
        (writes_putColumns columns (depth + 1))
      cases hcolumns : encodeColumns (depth + 1) columns <;>
        · rw [hcolumns] at hboth
          simpa only [hcolumns, both] using hboth

theorem writes_putColumns (columns : List Value) (depth : Nat) :
    Writes (putColumns depth columns) (encodeColumns depth columns) := by
  match columns with
  | [] =>
    intro out
    exact ⟨[], by rw [List.append_nil]; rfl, fun _ h => Except.ok.inj h⟩
  | v :: rest =>
    unfold putColumns encodeColumns
    exact (writes_putTagged v depth).bind (writes_putColumns rest depth)
end

/-- A value is written as its codec encodes it. -/
theorem writes_put (c : Codec) (v : Value) : Writes (c.put v) (c.encode v) := by
  cases c with
  | tagged => exact (writes_putTagged v 0).restoring
  | _ =>
    -- The other codecs take one kind of value each and refuse all others.
    cases v <;> first | exact writes_append _ | exact writes_throw _

end Codec

/-! ## What is written of a record -/

/-- Room for a length that was written behind other bytes is filled in. -/
theorem Buffer.patch_room (front body : List UInt8) (v w : UInt32) :
    patch (front ++ BigEndian.ofUInt32 v ++ body) front.length w =
      .ok (front ++ BigEndian.ofUInt32 w ++ body) := by
  have hroom : (BigEndian.ofUInt32 v).length = 4 := BigEndian.length_ofUInt32 v
  have hdrop : (front ++ BigEndian.ofUInt32 v ++ body).drop (front.length + 4) = body := by
    rw [← hroom, ← List.length_append, List.drop_left]
  rw [patch, if_pos (by simp only [List.length_append, hroom]; omega), hdrop,
    List.append_assoc front, List.take_left]

namespace RedoRecord

open Writer

theorem writes_putPayload (codec : Codec) (payload : Option Value) :
    Writes (putPayload codec payload) (encodePayload codec payload) := by
  -- The flag comes first, and then the value if there is one.
  cases payload with
  | none => exact writes_append [1]
  | some v =>
    have hboth := (writes_append [0]).bind (codec.writes_put v)
    have hencode : encodePayload codec (some v) = both (.ok [0]) (codec.encode v) := by
      simp only [encodePayload, both]
      cases codec.encode v <;> rfl
    rw [hencode]
    exact hboth

/-- What is written behind its length, unless it is too long. -/
def sized (r : Except StoreError (List UInt8)) : Except StoreError (List UInt8) :=
  match r with
  | .error err => .error err
  | .ok body =>
    if body.length < UInt32.size then .ok (Buffer.ofRun body) else .error (.invalid .recordTooLong)

/-- The length that is filled in is that of what stands behind the room. -/
theorem runOn_putLength (front body : List UInt8) :
    (putLength front.length (front.length + 4)).runOn (front ++ BigEndian.ofUInt32 0 ++ body) =
      if body.length < UInt32.size then (.ok (), front ++ Buffer.ofRun body)
      else (.error (.invalid .recordTooLong), front ++ BigEndian.ofUInt32 0 ++ body) := by
  have hlength : (front ++ BigEndian.ofUInt32 0 ++ body).length - (front.length + 4) =
      body.length := by
    simp only [List.length_append, BigEndian.length_ofUInt32]
    omega
  rw [putLength, runOn_bind, runOn_get]
  simp only [hlength, Buffer.patch_room]
  -- The room for the length is filled in place.
  by_cases hshort : body.length < UInt32.size
  · rw [if_neg (Nat.not_le_of_lt hshort), if_pos hshort, Buffer.ofRun, ← List.append_assoc]
    rfl
  · rw [if_pos (Nat.le_of_not_lt hshort), if_neg hshort]
    rfl

/-- What is written in the room and behind it is the length and the bytes. -/
theorem writes_putSized {w : Writer Unit} {r : Except StoreError (List UInt8)} (h : Writes w r) :
    Writes (putSized w) (sized r) := by
  intro front
  let room := BigEndian.ofUInt32 0
  have hstart : (front ++ room).length = front.length + 4 := by
    rw [List.length_append, BigEndian.length_ofUInt32]
  have hrun : (putSized w).runOn front =
      (do
        w
        putLength front.length (front.length + 4) : Writer Unit).runOn (front ++ room) := by
    rw [← hstart]
    rfl
  -- The body is written behind the room for its length.
  obtain ⟨more, hw, hmore⟩ := h (front ++ room)
  rw [hrun, runOn_bind, hw]
  cases r with
  | error err => exact ⟨room ++ more, by rw [← List.append_assoc]; rfl, fun _ hbs => by cases hbs⟩
  | ok body =>
    obtain rfl : more = body := hmore body rfl
    -- The length is known only now, and it may be too long for its field.
    have hfilled := runOn_putLength front more
    by_cases hshort : more.length < UInt32.size
    · rw [if_pos hshort] at hfilled
      rw [sized, if_pos hshort]
      exact ⟨Buffer.ofRun more, hfilled, fun _ hbs => Except.ok.inj hbs⟩
    · rw [if_neg hshort] at hfilled
      rw [sized, if_neg hshort]
      refine ⟨room ++ more, ?_, fun _ hbs => by cases hbs⟩
      rw [← List.append_assoc]
      exact hfilled

/-- A record is its name and its body, each behind its length. -/
theorem encode_eq (r : RedoRecord) (keyCodec valueCodec : Codec) :
    r.encode keyCodec valueCodec =
      both (.ok (Buffer.ofText r.map))
        (sized (both (keyCodec.encode r.key) (encodePayload valueCodec r.payload))) := by
  rw [encode, encodeBody]
  -- Both sides fail at the first part that cannot be encoded.
  cases keyCodec.encode r.key with
  | error err => rfl
  | ok key =>
    cases encodePayload valueCodec r.payload with
    | error err => rfl
    | ok payload =>
      by_cases hshort : key.length + payload.length < UInt32.size <;>
        simp only [both, sized, List.length_append, hshort, if_true, if_false]

theorem writes_putParts (r : RedoRecord) (keyCodec valueCodec : Codec) :
    Writes (r.putParts keyCodec valueCodec) (r.encode keyCodec valueCodec) := by
  have hbody : Writes (r.putBody keyCodec valueCodec)
      (both (keyCodec.encode r.key) (encodePayload valueCodec r.payload)) :=
    (keyCodec.writes_put r.key).bind (writes_putPayload valueCodec r.payload)
  rw [encode_eq]
  exact (writes_append (Buffer.ofText r.map)).bind (writes_putSized hbody)

/-- A record is written behind whatever the buffer holds, or it leaves the buffer as it was. -/
theorem runOn_write (r : RedoRecord) (keyCodec valueCodec : Codec) (out : List UInt8) :
    (r.write keyCodec valueCodec).runOn out =
      match r.encode keyCodec valueCodec with
      | .ok bs => (.ok bs.length, out ++ bs)
      | .error err => (.error err, out) := by
  obtain ⟨more, hrun, hmore⟩ := r.writes_putParts keyCodec valueCodec out
  rw [write, runOn_restoring, runOn_bind, runOn_get]
  simp only [runOn_bind, hrun]
  cases hencode : r.encode keyCodec valueCodec with
  | ok bs =>
    rw [hmore bs hencode]
    simp only [Except.map, runOn_get, runOn_pure, List.length_append, Nat.add_sub_cancel_left]
  | error err => simp only [Except.map, List.take_left]

end RedoRecord

/-! ## What codecs take -/

mutual
/-- How many rows lie around the deepest part of a value. -/
def Value.nesting : Value → Nat
  | .row columns => Value.nestingUnder columns
  | _ => 0

/-- How many rows lie around the deepest part of columns, that of the columns included. -/
def Value.nestingUnder : List Value → Nat
  | [] => 0
  | v :: rest => max (v.nesting + 1) (Value.nestingUnder rest)
end

namespace Codec

mutual
/-- A value has a tagged form if it does not reach too deep. -/
theorem isOk_encodeTagged (v : Value) (depth : Nat) :
    (encodeTagged depth v).isOk = decide (depth + v.nesting ≤ maxDepth) := by
  unfold encodeTagged
  by_cases hdepth : maxDepth < depth
  · rw [if_pos hdepth, decide_eq_false (by omega)]
    rfl
  · rw [if_neg hdepth]
    match v with
    | .row columns =>
      have hcolumns := isOk_encodeColumns columns (by omega : depth ≤ maxDepth)
      rw [Value.nesting, ← hcolumns]
      cases hencode : encodeColumns (depth + 1) columns <;>
        simp only [hencode, Except.isOk, Except.toBool]
    | .null | .bool false | .bool true | .int n | .text s | .bytes bs =>
      -- Nothing lies below such a value.
      exact (decide_eq_true (Nat.le_of_not_lt hdepth)).symm

theorem isOk_encodeColumns (columns : List Value) {depth : Nat} (hdepth : depth ≤ maxDepth) :
    (encodeColumns (depth + 1) columns).isOk =
      decide (depth + Value.nestingUnder columns ≤ maxDepth) := by
  -- By recursion on the columns, each of which lies one level deeper.
  match columns with
  | [] =>
    rw [Value.nestingUnder, decide_eq_true (by omega)]
    rfl
  | v :: rest =>
    have hhead := isOk_encodeTagged v (depth + 1)
    have htail := isOk_encodeColumns rest hdepth
    -- All columns are written if the first one is and the others are.
    have hboth : (encodeColumns (depth + 1) (v :: rest)).isOk =
        ((encodeTagged (depth + 1) v).isOk && (encodeColumns (depth + 1) rest).isOk) := by
      rw [encodeColumns]
      cases encodeTagged (depth + 1) v with
      | error err => rfl
      | ok bs => cases encodeColumns (depth + 1) rest <;> rfl
    rw [hboth, hhead, htail, Value.nestingUnder, ← Bool.decide_and, decide_eq_decide]
    omega
end

def accepts : Codec → Value → Bool
  | int64, .int _ => true
  | text, .text _ => true
  | bytes, .bytes _ => true
  | tagged, v => v.nesting ≤ maxDepth
  | _, _ => false

/-- A codec writes the values that it takes. -/
theorem isOk_encode (c : Codec) (v : Value) : (c.encode v).isOk = c.accepts v := by
  cases c with
  | tagged =>
    have htagged := isOk_encodeTagged v 0
    rwa [Nat.zero_add] at htagged
  | _ => cases v <;> rfl

end Codec

namespace LoggedRecord

variable (w : LoggedRecord)

def write : Writer Nat := w.record.write w.codecs.1 w.codecs.2

/-- Whether the codecs of a record take its key and its payload. -/
def isAccepted : Bool :=
  w.codecs.1.accepts w.record.key && w.record.payload.all w.codecs.2.accepts

/-- The name of a record is shorter than 2^32 bytes, and so is its body if there is one. -/
structure Fits : Prop where
  map : (Text.toBytes w.record.map).length < UInt32.size
  body : ∀ {key payload}, w.codecs.1.encode w.record.key = .ok key →
    RedoRecord.encodePayload w.codecs.2 w.record.payload = .ok payload →
      (key ++ payload).length < UInt32.size

/-- The buffer after records were written one after the other, whatever became of each. -/
def writeAll : List LoggedRecord → List UInt8 → List UInt8
  | [], out => out
  | w :: rest, out => writeAll rest (w.write.runOn out).2

variable {w}

theorem isOk_encodePayload (codec : Codec) (payload : Option Value) :
    (RedoRecord.encodePayload codec payload).isOk = payload.all codec.accepts := by
  cases payload with
  | none => rfl
  | some v =>
    rw [Option.all_some, ← codec.isOk_encode, RedoRecord.encodePayload]
    cases codec.encode v <;> rfl

/-- A record that fits is encoded exactly if its codecs take its key and its payload. -/
theorem encode_cases (hfits : w.Fits) :
    (w.isAccepted = true ∧ ∃ raw : RawRecord, raw.Fits ∧
        w.record.encode w.codecs.1 w.codecs.2 = .ok raw.bytes ∧ raw.map = w.record.map ∧
        raw.decode w.codecs.1 w.codecs.2 = .ok (w.record.key, w.record.payload)) ∨
      (w.isAccepted = false ∧ ∃ err, w.record.encode w.codecs.1 w.codecs.2 = .error err) := by
  -- Both fields are accepted by their codecs, or the record is refused.
  have hkeyOk := w.codecs.1.isOk_encode w.record.key
  have hpayloadOk := isOk_encodePayload w.codecs.2 w.record.payload
  rw [isAccepted, ← hkeyOk, ← hpayloadOk]
  cases hkey : w.codecs.1.encode w.record.key with
  | error err => exact .inr ⟨rfl, err, by simp only [RedoRecord.encode, RedoRecord.encodeBody, hkey]⟩
  | ok key =>
    cases hpayload : RedoRecord.encodePayload w.codecs.2 w.record.payload with
    | error err =>
      exact .inr ⟨rfl, err, by simp only [RedoRecord.encode, RedoRecord.encodeBody, hkey, hpayload]⟩
    | ok payload =>
      have hshort := hfits.body hkey hpayload
      have hbody : w.record.encodeBody w.codecs.1 w.codecs.2 = .ok (key ++ payload) := by
        rw [List.length_append] at hshort
        simp only [RedoRecord.encodeBody, hkey, hpayload, if_pos hshort]
      -- The record is read back from the bytes of its two fields.
      refine .inl ⟨rfl, ⟨w.record.map, key ++ payload⟩, ⟨hfits.map, hshort⟩, ?_, rfl,
        RedoRecord.decode_encodeBody hbody⟩
      simp only [RedoRecord.encode, hbody, RawRecord.bytes]

/-! ## The main statement -/

/-- What is read from undecoded records with the codecs of the records that were written. -/
def decodeAll (ws : List LoggedRecord) (raws : List RawRecord) :
    List (Except StoreError (Value × Option Value)) :=
  List.zipWith (fun w raw => raw.decode w.codecs.1 w.codecs.2) ws raws

/-- Records that were written one after the other stand behind the buffer as they are encoded. -/
theorem writeAll_eq {ws : List LoggedRecord} (hfits : ∀ w ∈ ws, w.Fits) (out : List UInt8) :
    ∃ raws : List RawRecord, writeAll ws out = out ++ raws.flatMap RawRecord.bytes ∧
      (∀ raw ∈ raws, raw.Fits) ∧
      raws.map RawRecord.map = (ws.filter isAccepted).map (·.record.map) ∧
      decodeAll (ws.filter isAccepted) raws =
        (ws.filter isAccepted).map fun w => .ok (w.record.key, w.record.payload) := by
  -- By induction on the records, as a refused one leaves the buffer to the next.
  induction ws generalizing out with
  | nil => exact ⟨[], (List.append_nil out).symm, nofun, rfl, rfl⟩
  | cons w rest ih =>
    have hrest := ih fun w' hw' => hfits w' (List.mem_cons_of_mem w hw')
    have hrun := w.record.runOn_write w.codecs.1 w.codecs.2 out
    rw [writeAll, write, hrun]
    rcases encode_cases (hfits w List.mem_cons_self) with
      ⟨haccepted, raw, hraw, hencode, hmap, hdecode⟩ | ⟨hrefused, err, hencode⟩
    · obtain ⟨raws, hall, hraws, hmaps, hdecoded⟩ := hrest (out ++ raw.bytes)
      rw [hencode, List.filter_cons_of_pos haccepted]
      refine ⟨raw :: raws, ?_, ?_, List.cons_eq_cons.mpr ⟨hmap, hmaps⟩,
        List.cons_eq_cons.mpr ⟨hdecode, hdecoded⟩⟩
      · rw [List.flatMap_cons, ← List.append_assoc]
        exact hall
      · intro raw' hraw'
        rcases List.mem_cons.mp hraw' with rfl | hmem
        · exact hraw
        · exact hraws raw' hmem
    · rw [hencode, List.filter_cons_of_neg (by rw [hrefused]; exact Bool.false_ne_true)]
      exact hrest out

/-- Take any records, each with codecs of its own for its key and its payload, and write them one
after the other, where no name and no body takes 2^32 bytes or more. A record that its codecs take
is written behind what the buffer holds and answered with the number of its bytes; one that they
refuse leaves the buffer as it was. The buffer is then split into exactly the records that were
taken, in their order: each names its map, and its body is read to the end with the codecs of the
record as the key and the payload that were written. -/
theorem split_writeAll (ws : List LoggedRecord) (hfits : ∀ w ∈ ws, w.Fits) :
    (∀ w ∈ ws, ∀ out,
        (w.isAccepted = true → ∃ more, w.write.runOn out = (.ok more.length, out ++ more)) ∧
        (w.isAccepted = false → ∃ err, w.write.runOn out = (.error err, out))) ∧
      ∃ raws, RawRecord.split (writeAll ws []) = .ok raws ∧
        raws.map RawRecord.map = (ws.filter isAccepted).map (·.record.map) ∧
        decodeAll (ws.filter isAccepted) raws =
          (ws.filter isAccepted).map fun w => .ok (w.record.key, w.record.payload) := by
  constructor
  · -- A single write appends all bytes of its record, or none.
    intro w hw out
    have hrun := w.record.runOn_write w.codecs.1 w.codecs.2 out
    rcases encode_cases (hfits w hw) with ⟨haccepted, raw, -, hencode, -⟩ | ⟨hrefused, err, hencode⟩
    · rw [hencode] at hrun
      exact ⟨fun _ => ⟨raw.bytes, hrun⟩, fun h => absurd (h.symm.trans haccepted) Bool.false_ne_true⟩
    · rw [hencode] at hrun
      exact ⟨fun h => absurd (hrefused.symm.trans h) Bool.false_ne_true, fun _ => ⟨err, hrun⟩⟩
  · obtain ⟨raws, hall, hraws, hmaps, hdecoded⟩ := writeAll_eq hfits []
    refine ⟨raws, ?_, hmaps, hdecoded⟩
    rw [hall, List.nil_append]
    exact RawRecord.split_flatMap hraws

/-- Of three records the second one has a value that its codec does not take. The other two are
split and decoded as if it had never been written. -/
theorem split_writeAll_of_mixed_codecs :
    let ws : List LoggedRecord :=
      [⟨⟨"m", .text "k", some (.row [.int 1, .row []])⟩, .text, .tagged⟩,
        ⟨⟨"m", .int 7, some .null⟩, .int64, .bytes⟩,
        ⟨⟨"", .bytes [255], none⟩, .bytes, .int64⟩]
    (∀ w ∈ ws, w.Fits) ∧ ws.map isAccepted = [true, false, true] ∧
      ∃ raws, RawRecord.split (writeAll ws []) = .ok raws ∧ raws.map RawRecord.map = ["m", ""] ∧
        (ws.filter isAccepted).map (·.record.payload) = [some (.row [.int 1, .row []]), none] := by
  intro ws
  -- Each record either fits, or one of its fields is refused.
  have hfits : ∀ w ∈ ws, w.Fits := by
    intro w hw
    simp only [ws, List.mem_cons, List.not_mem_nil, or_false] at hw
    rcases hw with rfl | rfl | rfl <;>
      refine ⟨by decide, fun hkey hpayload => ?_⟩ <;> cases hkey <;> cases hpayload <;> decide
  obtain ⟨-, raws, hsplit, hmaps, -⟩ := split_writeAll ws hfits
  exact ⟨hfits, by decide +kernel, raws, hsplit, hmaps, by decide +kernel⟩

end LoggedRecord

end TxnStore
