import TxnStore.Proofs.Values.Writing

/-!
# One spelling only

Bytes that come from anywhere may be read, not only such that a codec has written. Whatever a reader
accepts is still what would have been written: each word, length, tag and flag has one spelling, and
nothing is passed over. So the bytes of a payload can be told from its records.
-/

namespace TxnStore

open TxnStore.Action

/-! ## Readers and the bytes that they accept -/

namespace Reader

/-- Where the reader succeeds, it has taken bytes that belong to its value. -/
def Takes {α : Type} (r : Reader α) (P : α → List UInt8 → Prop) : Prop :=
  ∀ c a c', Action.runOn r c = (.ok a, c') → ∃ bs, c.rest = bs ++ c'.rest ∧ P a bs

variable {α β : Type} {r : Reader α} {P : α → List UInt8 → Prop} {Q : β → List UInt8 → Prop}

theorem takes_pure {a : α} (h : P a []) : Takes (pure a) P := by
  intro c b c' hrun
  cases hrun
  exact ⟨[], rfl, h⟩

theorem takes_throw (err : StoreError) (P : α → List UInt8 → Prop) : Takes (throw err) P := by
  intro c a c' hrun
  cases hrun

/-- Two readers one after the other. -/
theorem Takes.bind {f : α → Reader β} (hr : Takes r P)
    (hf : ∀ a bs, P a bs → Takes (f a) fun b cs => Q b (bs ++ cs)) : Takes (r >>= f) Q := by
  intro c b c' hrun
  obtain ⟨a, c₁, hfirst, hsecond⟩ := exists_of_runOn_bind hrun
  obtain ⟨bs, hbs, ha⟩ := hr c a c₁ hfirst
  obtain ⟨cs, hcs, hb⟩ := hf a bs ha c₁ b c' hsecond
  exact ⟨bs ++ cs, by rw [hbs, hcs, List.append_assoc], hb⟩

theorem Takes.map {f : α → β} (hr : Takes r fun a bs => Q (f a) bs) : Takes (f <$> r) Q := by
  intro c b c' hrun
  rw [runOn_map] at hrun
  cases hfirst : Action.runOn r c with
  | mk result c₁ =>
    rw [hfirst] at hrun
    cases result with
    | error err => cases hrun
    | ok a =>
      cases hrun
      exact hr c a c₁ hfirst

theorem Takes.imp {P' : α → List UInt8 → Prop} (hr : Takes r P) (h : ∀ a bs, P a bs → P' a bs) :
    Takes r P' := by
  intro c a c' hrun
  obtain ⟨bs, hbs, ha⟩ := hr c a c' hrun
  exact ⟨bs, hbs, h a bs ha⟩

theorem takes_take (n : Nat) : Takes (take n) fun a bs => a = bs ∧ bs.length = n := by
  intro c a c' hrun
  rw [take, runOn_bind, runOn_get] at hrun
  by_cases hroom : n ≤ c.remaining
  · simp only [if_pos hroom] at hrun
    cases hrun
    exact ⟨c.rest.take n, (List.take_append_drop n c.rest).symm, rfl, List.length_take_of_le hroom⟩
  · simp only [if_neg hroom] at hrun
    split at hrun <;> cases hrun

theorem takes_byte : Takes byte fun v bs => bs = [v] := by
  refine (takes_take 1).bind fun a bs h => takes_pure ?_
  obtain ⟨rfl, hlength⟩ := h
  obtain ⟨v, rfl⟩ := List.length_eq_one_iff.mp hlength
  simp [BigEndian.decode]

theorem takes_uint32 : Takes uint32 fun v bs => bs = BigEndian.ofUInt32 v := by
  refine ((takes_take 4).imp fun a bs h => ?_).map
  obtain ⟨rfl, hlength⟩ := h
  exact (BigEndian.ofUInt32_toUInt32 hlength).symm

theorem takes_int64 : Takes int64 fun v bs => bs = BigEndian.ofInt64 v := by
  refine ((takes_take 8).imp fun a bs h => ?_).map
  obtain ⟨rfl, hlength⟩ := h
  exact (BigEndian.ofInt64_toInt64 hlength).symm

/-- A run is taken with its length, which is a word. -/
theorem takes_run : Takes run fun a bs => a.length < UInt32.size ∧ bs = Buffer.ofRun a := by
  refine takes_uint32.bind fun n bs hn => (takes_take n.toNat).imp fun a cs h => ?_
  obtain ⟨rfl, hlength⟩ := h
  refine ⟨hlength ▸ n.toNat_lt, ?_⟩
  rw [hn, Buffer.ofRun, hlength, UInt32.ofNat_toNat]

/-- A text is taken with its length, and its bytes are the only ones that encode it. -/
theorem takes_text :
    Takes text fun s bs => (Text.toBytes s).length < UInt32.size ∧ bs = Buffer.ofText s := by
  refine takes_run.bind fun a bs h => ?_
  obtain ⟨hshort, rfl⟩ := h
  split
  · rename_i s hs
    refine takes_pure ?_
    rw [List.append_nil, Buffer.ofText, Text.toBytes_of_ofBytes? hs]
    exact ⟨hshort, rfl⟩
  · exact takes_throw _ _

end Reader

/-! ## Values -/

namespace Codec

open Reader Writer

/-- Columns are taken as they are written if each of them is. -/
theorem takes_columns {depth : Nat} {r : Reader Value}
    (hr : Takes r fun v bs => encodeTagged depth v = .ok bs ∧ v.Every Value.Fits) (n : Nat) :
    Takes (Reader.replicate n r) fun columns bs =>
      columns.length = n ∧ encodeColumns depth columns = .ok bs ∧
        Value.EveryIn Value.Fits columns := by
  induction n with
  | zero => exact takes_pure ⟨rfl, rfl, trivial⟩
  | succ n ih =>
    refine hr.bind fun v bs hv => ih.bind fun columns cs hcolumns => takes_pure ?_
    obtain ⟨hencode, hfits⟩ := hv
    obtain ⟨hlength, hrest, hothers⟩ := hcolumns
    refine ⟨congrArg (· + 1) hlength, ?_, hfits, hothers⟩
    simp only [encodeColumns, hencode, hrest, List.append_nil]

/-- Tagged forms are taken as they are written where as many rows lie around, and what is counted in
them fits. -/
theorem takes_decodeTagged {depth room : Nat} (hroom : depth + room = maxDepth + 1) :
    Takes (decodeTagged room) fun v bs =>
      encodeTagged depth v = .ok bs ∧ v.Every Value.Fits := by
  -- By induction on the room, which is what the depth leaves.
  induction room generalizing depth with
  | zero => exact takes_throw _ _
  | succ room ih =>
    have hdepth : ¬ maxDepth < depth := by omega
    unfold decodeTagged
    refine takes_byte.bind fun tag bs htag => ?_
    subst htag
    -- One case for each tag.
    split
    · rename_i htag
      obtain rfl : tag = 0 := UInt8.toNat_inj.mp htag
      refine takes_pure ⟨?_, trivial, trivial⟩
      rw [encodeTagged, if_neg hdepth]
      rfl
    · rename_i htag
      obtain rfl : tag = 1 := UInt8.toNat_inj.mp htag
      refine takes_pure ⟨?_, trivial, trivial⟩
      rw [encodeTagged, if_neg hdepth]
      rfl
    · rename_i htag
      obtain rfl : tag = 2 := UInt8.toNat_inj.mp htag
      refine takes_pure ⟨?_, trivial, trivial⟩
      rw [encodeTagged, if_neg hdepth]
      rfl
    · rename_i htag
      obtain rfl : tag = 3 := UInt8.toNat_inj.mp htag
      refine takes_int64.bind fun n bs hn => takes_pure ⟨?_, trivial, trivial⟩
      rw [encodeTagged, if_neg hdepth, hn, List.append_nil]
      rfl
    · rename_i htag
      obtain rfl : tag = 4 := UInt8.toNat_inj.mp htag
      refine takes_text.bind fun s bs hs => takes_pure ⟨?_, hs.1, trivial⟩
      rw [encodeTagged, if_neg hdepth, hs.2, List.append_nil]
      rfl
    · rename_i htag
      obtain rfl : tag = 5 := UInt8.toNat_inj.mp htag
      refine takes_run.bind fun run bs hrun => takes_pure ⟨?_, hrun.1, trivial⟩
      rw [encodeTagged, if_neg hdepth, hrun.2, List.append_nil]
      rfl
    · -- Only a row goes deeper.
      rename_i htag
      obtain rfl : tag = 6 := UInt8.toNat_inj.mp htag
      -- The columns lie one level deeper, behind their number.
      refine takes_uint32.bind fun count bs hcount =>
        (takes_columns (ih (by omega : depth + 1 + room = maxDepth + 1)) count.toNat).bind
          fun columns cs hcolumns => takes_pure ?_
      obtain ⟨hlength, hencode, hfits⟩ := hcolumns
      have hfew : columns.length < UInt32.size := hlength ▸ count.toNat_lt
      refine ⟨?_, ⟨trivial, hfew⟩, hfits⟩
      rw [encodeTagged, if_neg hdepth]
      simp only [hencode, hcount, hlength, UInt32.ofNat_toNat, List.append_nil]
      rfl
    · exact takes_throw _ _

/-- A codec takes the bytes that it writes. -/
theorem takes_decode (c : Codec) : Takes c.decode fun v bs => c.encode v = .ok bs := by
  cases c with
  | int64 => exact (takes_int64.imp fun n bs hn => congrArg Except.ok hn.symm).map
  | text => exact (takes_text.imp fun s bs hs => congrArg Except.ok hs.2.symm).map
  | bytes => exact (takes_run.imp fun run bs hrun => congrArg Except.ok hrun.2.symm).map
  | tagged => exact (takes_decodeTagged (Nat.zero_add _)).imp fun v bs hv => hv.1

end Codec

/-! ## Records -/

namespace RawRecord

open Reader

theorem takes_readPayload (c : Codec) :
    Takes (readPayload c) fun payload bs => RedoRecord.encodePayload c payload = .ok bs := by
  refine takes_byte.bind fun flag bs hflag => ?_
  subst hflag
  -- The flag is 0 for a value and 1 for a removal.
  split
  · rename_i hflag
    obtain rfl : flag = 0 := UInt8.toNat_inj.mp hflag
    refine (c.takes_decode.imp fun v bs hv => ?_).map
    simp only [RedoRecord.encodePayload, hv]
    rfl
  · rename_i hflag
    obtain rfl : flag = 1 := UInt8.toNat_inj.mp hflag
    exact takes_pure rfl
  · exact takes_throw _ _

variable {raw : RawRecord} {keyCodec valueCodec : Codec} {key : Value} {payload : Option Value}

/-- A body that is decoded is what is written of its record. -/
theorem encode_of_decode (hfits : raw.Fits)
    (h : raw.decode keyCodec valueCodec = .ok (key, payload)) :
    RedoRecord.encode ⟨raw.map, key, payload⟩ keyCodec valueCodec = .ok raw.bytes := by
  unfold decode Reader.read at h
  obtain ⟨c, hrun⟩ : ∃ c, Action.runOn (readBody keyCodec valueCodec) (.ofBytes raw.body) =
    (.ok (key, payload), c) := ⟨_, Prod.ext h rfl⟩
  obtain ⟨key', c₁, hkey, hrest⟩ := exists_of_runOn_bind hrun
  obtain ⟨payload', c₂, hpayload, hend⟩ := exists_of_runOn_bind hrest
  rw [runOn_bind, runOn_get] at hend
  -- Nothing is left behind the payload.
  by_cases hexhausted : c₂.isExhausted = true
  · simp only [if_pos hexhausted] at hend
    cases hend
    obtain ⟨bs, hbs, hkey⟩ := keyCodec.takes_decode _ _ _ hkey
    obtain ⟨more, hmore, hpayload⟩ := takes_readPayload valueCodec _ _ _ hpayload
    rw [hmore, List.isEmpty_iff.mp hexhausted, List.append_nil] at hbs
    have hbody : raw.body = bs ++ more := hbs
    have hshort := hfits.body
    rw [hbody, List.length_append] at hshort
    simp only [RedoRecord.encode, RedoRecord.encodeBody, hkey, hpayload, if_pos hshort, bytes,
      hbody]
  · simp only [if_neg hexhausted] at hend
    cases hend

/-- Records that are read up to the end of the bytes are all of the bytes. -/
theorem eq_of_runOn_readAll {bound : Nat} {c c' : Cursor} {raws : List RawRecord}
    (h : Action.runOn (readAll bound) c = (.ok raws, c')) (hbound : c.rest.length ≤ bound) :
    c.rest = raws.flatMap bytes ∧ ∀ raw ∈ raws, raw.Fits := by
  -- By induction on the bound, which is enough as each record takes bytes.
  induction bound generalizing c raws with
  | zero =>
    cases h
    exact ⟨List.length_eq_zero_iff.mp (Nat.le_zero.mp hbound), nofun⟩
  | succ bound ih =>
    rw [readAll, runOn_bind, runOn_get] at h
    by_cases hexhausted : c.isExhausted = true
    · simp only [if_pos hexhausted] at h
      cases h
      exact ⟨List.isEmpty_iff.mp hexhausted, nofun⟩
    · simp only [if_neg hexhausted] at h
      obtain ⟨map, c₁, hmap, h⟩ := exists_of_runOn_bind h
      obtain ⟨body, c₂, hbody, h⟩ := exists_of_runOn_bind h
      obtain ⟨rest, c₃, hrest, h⟩ := exists_of_runOn_bind h
      cases h
      obtain ⟨_, hfront, hmapFits, rfl⟩ := takes_text _ _ _ hmap
      obtain ⟨_, hback, hbodyFits, rfl⟩ := takes_run _ _ _ hbody
      -- The record takes bytes, so that fewer are left for the others.
      rw [hfront, hback, ← List.append_assoc, List.length_append, List.length_append,
        Buffer.ofText, Buffer.length_ofRun] at hbound
      obtain ⟨hothers, hfits⟩ := ih hrest (by omega)
      refine ⟨?_, List.forall_mem_cons.mpr ⟨⟨hmapFits, hbodyFits⟩, hfits⟩⟩
      rw [hfront, hback, hothers, ← List.append_assoc]
      rfl

/-- A payload that is split is the bytes of its records. -/
theorem eq_of_split {p : List UInt8} {raws : List RawRecord} (h : split p = .ok raws) :
    p = raws.flatMap bytes ∧ ∀ raw ∈ raws, raw.Fits :=
  eq_of_runOn_readAll (c := .ofBytes p) (Prod.ext h rfl) (Nat.le_refl _)

/-- The record, decoded with the codecs of its map. -/
def decodeWith (codecs : CodecBook) (raw : RawRecord) : Except StoreError RedoRecord := do
  let (key, payload) ← raw.decode (codecs raw.map).1 (codecs raw.map).2
  return ⟨raw.map, key, payload⟩

end RawRecord

namespace RedoRecord

/-- Writes a record with the codecs of its map. -/
def writeWith (codecs : CodecBook) (r : RedoRecord) : Writer Nat :=
  r.write (codecs r.map).1 (codecs r.map).2

/-- A record that was decoded is written as it was. -/
theorem runOn_writeWith {codecs : CodecBook} {raw : RawRecord} {r : RedoRecord}
    (hfits : raw.Fits) (h : raw.decodeWith codecs = .ok r) (out : List UInt8) :
    (r.writeWith codecs).runOn out = (.ok raw.bytes.length, out ++ raw.bytes) := by
  -- The decoded record is encoded to the bytes that it was read from.
  unfold RawRecord.decodeWith at h
  cases hdecode : raw.decode (codecs raw.map).1 (codecs raw.map).2 with
  | error err =>
    rw [hdecode] at h
    cases h
  | ok found =>
    rw [hdecode] at h
    cases h
    have hencode := RawRecord.encode_of_decode hfits hdecode
    rw [writeWith, runOn_write, hencode]

/-- Records that were decoded are written one behind the other as they were. -/
theorem runOn_mapM_writeWith {codecs : CodecBook} {raws : List RawRecord} {rs : List RedoRecord}
    (hfits : ∀ raw ∈ raws, raw.Fits) (h : raws.mapM (RawRecord.decodeWith codecs) = .ok rs)
    (out : List UInt8) :
    Action.runOn (rs.mapM (writeWith codecs)) out =
      (.ok (raws.map fun raw => raw.bytes.length), out ++ raws.flatMap RawRecord.bytes) := by
  -- By induction on the records, of which each one writes its own bytes.
  induction raws generalizing rs out with
  | nil =>
    cases h
    rw [List.flatMap_nil, List.append_nil]
    rfl
  | cons raw rest ih =>
    obtain ⟨hfirst, hothers⟩ := List.forall_mem_cons.mp hfits
    rw [List.mapM_cons] at h
    cases hraw : raw.decodeWith codecs with
    | error err =>
      rw [hraw] at h
      cases h
    | ok r =>
      cases hrest : rest.mapM (RawRecord.decodeWith codecs) with
      | error err =>
        rw [hraw, hrest] at h
        cases h
      | ok others =>
        rw [hraw, hrest] at h
        cases h
        rw [List.mapM_cons, runOn_bind, runOn_writeWith hfirst hraw]
        simp only [runOn_bind, ih hothers hrest, runOn_pure, List.map_cons, List.flatMap_cons,
          List.append_assoc]

/-! ## The main statement -/

/-- Take any payload that can be split into records, each of which can be decoded with the codecs of
its map, whatever these are. Writing what was decoded with the same codecs, one record after the
other and behind any bytes, does not fail and writes exactly the payload. For what a codec decodes
there is one spelling only, and the codec writes it: whatever was before in the buffer, the bytes
that were taken are written behind it, and wherever else the value is decoded, the same bytes are
taken. -/
theorem writeWith_split {codecs : CodecBook} {p : List UInt8} {raws : List RawRecord}
    {rs : List RedoRecord} (hsplit : RawRecord.split p = .ok raws)
    (hdecode : raws.mapM (RawRecord.decodeWith codecs) = .ok rs) :
    (∀ out, Action.runOn (rs.mapM (writeWith codecs)) out =
        (.ok (raws.map fun raw => raw.bytes.length), out ++ p)) ∧
      ∀ (c : Codec) (bs : List UInt8) (v : Value) (k : Cursor),
        Action.runOn c.decode (.ofBytes bs) = (.ok v, k) →
          ∃ front, bs = front ++ k.rest ∧ (∀ out, (c.put v).runOn out = (.ok (), out ++ front)) ∧
            ∀ bs' k', Action.runOn c.decode (.ofBytes bs') = (.ok v, k') →
              bs' = front ++ k'.rest := by
  constructor
  · intro out
    obtain ⟨rfl, hfits⟩ := RawRecord.eq_of_split hsplit
    exact runOn_mapM_writeWith hfits hdecode out
  · -- The decoder takes exactly what the encoder gives for the value.
    intro c bs v k hrun
    obtain ⟨front, hfront, hencode⟩ := c.takes_decode _ _ _ hrun
    have hput := c.writes_put v
    rw [hencode] at hput
    refine ⟨front, hfront, hput.ok, fun bs' k' hrun' => ?_⟩
    obtain ⟨front', hfront', hencode'⟩ := c.takes_decode _ _ _ hrun'
    rw [hencode] at hencode'
    cases hencode'
    exact hfront'

/-- A row in one map and a delete in another, with codecs of their own. -/
theorem writeWith_split_of_two_maps :
    let codecs : CodecBook := fun name => if name = "m" then (.text, .tagged) else (.bytes, .int64)
    let p : List UInt8 :=
      [0, 0, 0, 1, 109] ++ [0, 0, 0, 12] ++ [0, 0, 0, 1, 107, 0, 6, 0, 0, 0, 1, 2] ++
        ([0, 0, 0, 1, 110] ++ [0, 0, 0, 6] ++ [0, 0, 0, 1, 255, 1])
    let raws : List RawRecord :=
      [⟨"m", [0, 0, 0, 1, 107, 0, 6, 0, 0, 0, 1, 2]⟩, ⟨"n", [0, 0, 0, 1, 255, 1]⟩]
    let rs : List RedoRecord :=
      [⟨"m", .text "k", some (.row [.bool true])⟩, ⟨"n", .bytes [255], none⟩]
    RawRecord.split p = .ok raws ∧ raws.mapM (RawRecord.decodeWith codecs) = .ok rs ∧
      Action.runOn (rs.mapM (writeWith codecs)) [7] = (.ok [21, 15], 7 :: p) := by
  intro codecs p raws rs
  -- The payload is split by computation, as the splitting is a recursion with a bound.
  have hsplit : RawRecord.split p = .ok raws := by
    have hfound : (RawRecord.split p).toOption = some raws := by decide +kernel
    cases h : RawRecord.split p with
    | error err =>
      rw [h] at hfound
      cases hfound
    | ok found =>
      rw [h] at hfound
      exact congrArg Except.ok (Option.some.inj hfound)
  have hdecode : raws.mapM (RawRecord.decodeWith codecs) = .ok rs := rfl
  exact ⟨hsplit, hdecode, (writeWith_split hsplit hdecode).1 [7]⟩

end RedoRecord

end TxnStore
