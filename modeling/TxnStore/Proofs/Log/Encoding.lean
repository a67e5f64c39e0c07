import TxnStore.Log.Frame

/-!
# Encodings of a log

What is written to a log reads back: the header of a log and the header of a frame are the same
after they were written as bytes. Both are cut into fields of fixed width. The other way round, the
header of a log is read from no other bytes than those it is written as, and the header of a frame
only from those it is written as with any four bytes in its spare field.
-/

namespace TxnStore

/-! ## Words -/

namespace BigEndian

@[simp] theorem length_ofUInt16 (v : UInt16) : (ofUInt16 v).length = 2 := length_encode 2 v.toNat

@[simp] theorem length_ofUInt32 (v : UInt32) : (ofUInt32 v).length = 4 := length_encode 4 v.toNat

@[simp] theorem length_ofUInt64 (v : UInt64) : (ofUInt64 v).length = 8 := length_encode 8 v.toNat

@[simp] theorem toUInt16_ofUInt16 (v : UInt16) : toUInt16 (ofUInt16 v) = v := by
  have hlt : v.toNat < 1 <<< (8 * 2) := v.toNat_lt
  rw [toUInt16, ofUInt16, decode_encode, Nat.mod_eq_of_lt hlt, UInt16.ofNat_toNat]

@[simp] theorem toUInt32_ofUInt32 (v : UInt32) : toUInt32 (ofUInt32 v) = v := by
  have hlt : v.toNat < 1 <<< (8 * 4) := v.toNat_lt
  rw [toUInt32, ofUInt32, decode_encode, Nat.mod_eq_of_lt hlt, UInt32.ofNat_toNat]

@[simp] theorem toUInt64_ofUInt64 (v : UInt64) : toUInt64 (ofUInt64 v) = v := by
  have hlt : v.toNat < 1 <<< (8 * 8) := v.toNat_lt
  rw [toUInt64, ofUInt64, decode_encode, Nat.mod_eq_of_lt hlt, UInt64.ofNat_toNat]

theorem decode_cons (b : UInt8) (bs : List UInt8) :
    decode (b :: bs) = b.toNat <<< (8 * bs.length) + decode bs := by
  -- The number read so far varies: it is shifted by each byte that follows.
  suffices h : ∀ acc : Nat, bs.foldl (fun acc b => 256 * acc + b.toNat) acc =
      acc <<< (8 * bs.length) + decode bs by
    rw [decode, List.foldl_cons, h, Nat.mul_zero, Nat.zero_add]
  induction bs with
  | nil => intro acc; simp [decode]
  | cons c rest ih =>
    intro acc
    rw [decode, List.foldl_cons, List.foldl_cons, ih, ih, List.length_cons, Nat.mul_zero,
      Nat.zero_add, Nat.mul_succ, Nat.add_comm (8 * rest.length), Nat.shiftLeft_add]
    have hadd : (256 * acc + c.toNat) <<< (8 * rest.length) =
        (acc <<< 8) <<< (8 * rest.length) + c.toNat <<< (8 * rest.length) := by
      rw [Nat.shiftLeft_eq _ 8, Nat.mul_comm acc]
      simp only [Nat.shiftLeft_eq, Nat.add_mul]
    rw [hadd, Nat.add_assoc]

theorem decode_lt (bs : List UInt8) : decode bs < 1 <<< (8 * bs.length) := by
  -- By induction on the bytes: the first one is below 256, and the others fill the lower places.
  induction bs with
  | nil => decide
  | cons b rest ih =>
    have hb : b.toNat + 1 ≤ 256 := b.toNat_lt
    have hbyte : (b.toNat + 1) <<< (8 * rest.length) ≤ 256 <<< (8 * rest.length) := by
      rw [Nat.shiftLeft_eq, Nat.shiftLeft_eq]
      exact Nat.mul_le_mul_right _ hb
    have hsum : (b.toNat + 1) <<< (8 * rest.length) =
        b.toNat <<< (8 * rest.length) + 1 <<< (8 * rest.length) := by
      simp only [Nat.shiftLeft_eq, Nat.add_mul]
    rw [decode_cons, List.length_cons, Nat.mul_succ, Nat.add_comm (8 * rest.length),
      Nat.shiftLeft_add]
    have hword : (1 : Nat) <<< 8 = 256 := rfl
    rw [hword]
    omega

/-- Runs of the same length are told apart by the numbers that they write. -/
theorem eq_of_decode_eq {bs cs : List UInt8} (hlength : bs.length = cs.length)
    (h : decode bs = decode cs) : bs = cs := by
  -- By induction on the bytes, the most significant one first.
  induction bs generalizing cs with
  | nil => exact (List.eq_nil_of_length_eq_zero hlength.symm).symm
  | cons b rest ih =>
    cases cs with
    | nil => cases hlength
    | cons c others =>
      have hsame : rest.length = others.length := Nat.succ.inj hlength
      have hrest := decode_lt rest
      have hothers := decode_lt others
      rw [decode_cons, decode_cons, hsame] at h
      rw [hsame, Nat.shiftLeft_eq, Nat.one_mul] at hrest
      rw [Nat.shiftLeft_eq, Nat.one_mul] at hothers
      rw [Nat.shiftLeft_eq, Nat.shiftLeft_eq] at h
      generalize 2 ^ (8 * others.length) = width at h hrest hothers
      -- The first byte is the quotient, and the other bytes are the remainder.
      have hhead : b.toNat = c.toNat := by
        have hpos : 0 < width := Nat.lt_of_le_of_lt (Nat.zero_le _) hrest
        have hquotient := congrArg (· / width) h
        simp only [Nat.mul_comm _ width, Nat.mul_add_div hpos] at hquotient
        rwa [Nat.div_eq_of_lt hrest, Nat.div_eq_of_lt hothers] at hquotient
      rw [UInt8.toNat_inj.mp hhead, ih hsame (by rw [hhead] at h; omega)]

/-- Bytes are written again as they were read. -/
theorem encode_decode (bs : List UInt8) : encode bs.length (decode bs) = bs := by
  apply eq_of_decode_eq (length_encode _ _)
  rw [decode_encode]
  exact Nat.mod_eq_of_lt (decode_lt bs)

theorem ofUInt16_toUInt16 {bs : List UInt8} (h : bs.length = 2) : ofUInt16 (toUInt16 bs) = bs := by
  have hlt : decode bs < 2 ^ 16 := by
    have hlt := decode_lt bs
    rwa [h] at hlt
  have hback := encode_decode bs
  rw [h] at hback
  rwa [ofUInt16, toUInt16, UInt16.toNat_ofNat', Nat.mod_eq_of_lt hlt]

theorem ofUInt32_toUInt32 {bs : List UInt8} (h : bs.length = 4) : ofUInt32 (toUInt32 bs) = bs := by
  have hlt : decode bs < 2 ^ 32 := by
    have hlt := decode_lt bs
    rwa [h] at hlt
  have hback := encode_decode bs
  rw [h] at hback
  rwa [ofUInt32, toUInt32, UInt32.toNat_ofNat', Nat.mod_eq_of_lt hlt]

theorem ofUInt64_toUInt64 {bs : List UInt8} (h : bs.length = 8) : ofUInt64 (toUInt64 bs) = bs := by
  have hlt : decode bs < 2 ^ 64 := by
    have hlt := decode_lt bs
    rwa [h] at hlt
  have hback := encode_decode bs
  rw [h] at hback
  rwa [ofUInt64, toUInt64, UInt64.toNat_ofNat', Nat.mod_eq_of_lt hlt]

theorem ofInt64_toInt64 {bs : List UInt8} (h : bs.length = 8) : ofInt64 (toInt64 bs) = bs :=
  ofUInt64_toUInt64 h

end BigEndian

/-! ## Fields -/

namespace LogHeader

variable {pre field post : List UInt8} {offset n : Nat}

/-- A field of a known width at a known offset. -/
theorem slice_append (hoffset : pre.length = offset) (hn : field.length = n) :
    slice (pre ++ (field ++ post)) offset n = field := by
  subst hoffset hn
  rw [slice, List.drop_left, List.take_left]

/-- The field behind all others. -/
theorem slice_append_last (hoffset : pre.length = offset) (hn : field.length = n) :
    slice (pre ++ field) offset n = field := by
  have hfield : slice (pre ++ (field ++ [])) offset n = field := slice_append hoffset hn
  rwa [List.append_nil] at hfield

/-- A field of two parts. -/
theorem slice_add (bs : List UInt8) (offset m n : Nat) :
    slice bs offset (m + n) = slice bs offset m ++ slice bs (offset + m) n := by
  rw [slice, slice, slice, List.take_add, List.drop_drop]

theorem slice_all {bs : List UInt8} (h : bs.length = n) : slice bs 0 n = bs := by
  rw [slice, List.drop_zero, List.take_of_length_le (Nat.le_of_eq h)]

theorem length_slice {bs : List UInt8} (h : offset + n ≤ bs.length) :
    (slice bs offset n).length = n := by
  rw [slice, List.length_take, List.length_drop]
  omega

/-! ## The header of a log -/

@[simp] theorem length_guarded (h : LogHeader) : h.guarded.length = 28 := by
  simp [guarded, magic]

@[simp] theorem length_encode (h : LogHeader) : h.encode.length = size := by
  simp [encode, size]

theorem encode_ne_nil (h : LogHeader) : h.encode ≠ [] := by
  intro hnil
  have hlength := h.length_encode
  rw [hnil] at hlength
  exact absurd hlength (by decide)

/-- A header reads back. -/
theorem decode_encode (h : LogHeader) : decode h.encode = .ok h := by
  -- The fields of known bytes are read off; the sum is behind bytes of which only the length is
  -- known.
  have hword : BigEndian.ofUInt16 version = [0, 1] := rfl
  have hmagic : slice h.encode 0 4 = magic := by
    simp [encode, guarded, slice, magic]
  have hversion : slice h.encode 4 2 = BigEndian.ofUInt16 version := by
    simp [encode, guarded, slice, magic, hword]
  have hzeros : slice h.encode 6 2 = [0, 0] := by
    simp [encode, guarded, slice, magic, hword]
  have hsalt : slice h.encode 8 8 = BigEndian.ofUInt64 h.salt := by
    simp [encode, guarded, slice, magic, hword]
  have hstart : slice h.encode 16 8 = BigEndian.ofUInt64 h.startLsn.val := by
    simp [encode, guarded, slice, magic, hword]
  have hzeros' : slice h.encode 24 4 = [0, 0, 0, 0] := by
    simp [encode, guarded, slice, magic, hword, List.drop_append, List.take_append]
  have hguarded : slice h.encode 0 28 = h.guarded := by
    show slice ([] ++ (h.guarded ++ BigEndian.ofUInt32 (Crc32.ofBytes h.guarded))) 0 28 = _
    exact slice_append rfl h.length_guarded
  have hsum : slice h.encode 28 4 = BigEndian.ofUInt32 (Crc32.ofBytes h.guarded) :=
    slice_append_last h.length_guarded (by simp)
  simp [decode, hmagic, hversion, hzeros, hzeros', hsum, hguarded, hsalt, hstart]

/-- A header is read from no other bytes than those it is written as. -/
theorem eq_encode_of_decode {bs : List UInt8} {h : LogHeader} (hlength : bs.length = size)
    (hdecode : decode bs = .ok h) : bs = h.encode := by
  have hsize : bs.length = 32 := hlength
  -- Each check of the decoder gives one equation about the bytes.
  unfold decode at hdecode
  split at hdecode
  · cases hdecode
  next hmagic =>
  split at hdecode
  · cases hdecode
  next hversion =>
  split at hdecode
  · cases hdecode
  next hzeros =>
  split at hdecode
  · cases hdecode
  next hsum =>
  cases hdecode
  simp only [not_or, Decidable.not_not] at hmagic hversion hzeros hsum
  obtain ⟨hzeros, hzeros'⟩ := hzeros
  -- A field has as many bytes as were cut out for it.
  have hfield : ∀ {offset n}, offset + n ≤ 32 → (slice bs offset n).length = n := fun h =>
    length_slice (hsize.symm ▸ h)
  have hword := BigEndian.ofUInt16_toUInt16 (hfield (by decide : 4 + 2 ≤ 32))
  have hsalt := BigEndian.ofUInt64_toUInt64 (hfield (by decide : 8 + 8 ≤ 32))
  have hstart := BigEndian.ofUInt64_toUInt64 (hfield (by decide : 16 + 8 ≤ 32))
  have hcrc := BigEndian.ofUInt32_toUInt32 (hfield (by decide : 28 + 4 ≤ 32))
  -- The guarded bytes are the fields one behind the other.
  have hguarded : slice bs 0 28 = guarded
      ⟨BigEndian.toUInt64 (slice bs 8 8), ⟨BigEndian.toUInt64 (slice bs 16 8)⟩⟩ := by
    rw [guarded, hsalt, hstart, ← hmagic, ← hversion, hword, ← hzeros', ← hzeros, ← slice_add bs 0 4 2,
      ← slice_add bs 0 6 2, ← slice_add bs 0 8 8, ← slice_add bs 0 16 8, ← slice_add bs 0 24 4]
  rw [encode, ← hguarded, ← hsum, hcrc, ← slice_add bs 0 28 4, slice_all hsize]

/-- Bytes that are no header are damaged. -/
theorem exists_of_decode_error {bs : List UInt8} {e : StoreError} (h : decode bs = .error e) :
    ∃ damage, e = .corruption damage := by
  unfold decode at h
  repeat
    split at h
    · cases h
      exact ⟨_, rfl⟩
  cases h

end LogHeader

/-! ## The header of a frame -/

namespace FrameHeader

open LogHeader (size slice slice_append slice_append_last slice_add slice_all length_slice)

/-- The bytes that the header's checksum covers, with any bytes in the spare field behind the
checksum of the payload. Nobody looks at these, so that they may be others than the zeros that are
written there. -/
def guardedWith (h : FrameHeader) (spare : List UInt8) : List UInt8 :=
  BigEndian.ofUInt64 h.lsn.val ++ BigEndian.ofUInt64 h.txn.val ++ BigEndian.ofUInt32 h.length ++
    BigEndian.ofUInt32 h.checksum ++ spare

/-- The bytes of a header with any bytes in its spare field. -/
def encodeWith (h : FrameHeader) (spare : List UInt8) : List UInt8 :=
  h.guardedWith spare ++ BigEndian.ofUInt32 (Crc32.ofBytes (h.guardedWith spare))

variable {spare : List UInt8}

theorem length_guardedWith (h : FrameHeader) (hspare : spare.length = 4) :
    (h.guardedWith spare).length = 28 := by
  simp [guardedWith, hspare]

theorem length_encodeWith (h : FrameHeader) (hspare : spare.length = 4) :
    (h.encodeWith spare).length = FrameHeader.size := by
  simp [encodeWith, length_guardedWith h hspare, FrameHeader.size]

@[simp] theorem length_encode (h : FrameHeader) : h.encode.length = FrameHeader.size :=
  h.length_encodeWith rfl

/-- The header of a frame reads back, whatever lies in its spare field. -/
theorem decode_encodeWith (h : FrameHeader) (hspare : spare.length = 4) :
    decode (h.encodeWith spare) = some h := by
  -- Each field is found where it was put.
  have hlsn : slice (h.encodeWith spare) 0 8 = BigEndian.ofUInt64 h.lsn.val := by
    simp [encodeWith, guardedWith, slice]
  have htxn : slice (h.encodeWith spare) 8 8 = BigEndian.ofUInt64 h.txn.val := by
    simp [encodeWith, guardedWith, slice]
  have hlength : slice (h.encodeWith spare) 16 4 = BigEndian.ofUInt32 h.length := by
    simp [encodeWith, guardedWith, slice, List.drop_append, List.take_append]
  have hchecksum : slice (h.encodeWith spare) 20 4 = BigEndian.ofUInt32 h.checksum := by
    simp [encodeWith, guardedWith, slice, List.drop_append, List.drop_eq_nil_of_le]
  -- The sum guards all fields before it, hence the two are cut apart by length.
  have hguarded : slice (h.encodeWith spare) 0 28 = h.guardedWith spare := by
    show slice ([] ++ (h.guardedWith spare ++
      BigEndian.ofUInt32 (Crc32.ofBytes (h.guardedWith spare)))) 0 28 = _
    exact slice_append rfl (h.length_guardedWith hspare)
  have hsum : slice (h.encodeWith spare) 28 4 =
      BigEndian.ofUInt32 (Crc32.ofBytes (h.guardedWith spare)) :=
    slice_append_last (h.length_guardedWith hspare) (by simp)
  simp [decode, hlsn, htxn, hlength, hchecksum, hguarded, hsum]

theorem decode_encode (h : FrameHeader) : decode h.encode = some h := h.decode_encodeWith rfl

/-- The header of a frame is read from no other bytes than those it is written as with some bytes in
its spare field. -/
theorem exists_of_decode {bs : List UInt8} {h : FrameHeader}
    (hlength : bs.length = FrameHeader.size) (hdecode : decode bs = some h) :
    ∃ spare, spare.length = 4 ∧ bs = h.encodeWith spare := by
  have hsize : bs.length = 32 := hlength
  -- The sum is right, as nothing is decoded otherwise.
  unfold decode at hdecode
  split at hdecode
  · next hsum =>
    cases hdecode
    have hfield : ∀ {offset n}, offset + n ≤ 32 → (slice bs offset n).length = n := fun h =>
      length_slice (hsize.symm ▸ h)
    refine ⟨slice bs 24 4, hfield (by decide), ?_⟩
    have hlsn := BigEndian.ofUInt64_toUInt64 (hfield (by decide : 0 + 8 ≤ 32))
    have htxn := BigEndian.ofUInt64_toUInt64 (hfield (by decide : 8 + 8 ≤ 32))
    have hlen := BigEndian.ofUInt32_toUInt32 (hfield (by decide : 16 + 4 ≤ 32))
    have hchecksum := BigEndian.ofUInt32_toUInt32 (hfield (by decide : 20 + 4 ≤ 32))
    have hcrc := BigEndian.ofUInt32_toUInt32 (hfield (by decide : 28 + 4 ≤ 32))
    -- The guarded bytes are the fields again, with the spare ones in their place.
    have hguarded : slice bs 0 28 = guardedWith
        { lsn := ⟨BigEndian.toUInt64 (slice bs 0 8)⟩
          txn := ⟨BigEndian.toUInt64 (slice bs 8 8)⟩
          length := BigEndian.toUInt32 (slice bs 16 4)
          checksum := BigEndian.toUInt32 (slice bs 20 4) } (slice bs 24 4) := by
      rw [guardedWith, hlsn, htxn, hlen, hchecksum, ← slice_add bs 0 8 8, ← slice_add bs 0 16 4,
        ← slice_add bs 0 20 4, ← slice_add bs 0 24 4]
    rw [encodeWith, ← hguarded, ← hsum, hcrc, ← slice_add bs 0 28 4, slice_all hsize]
  · cases hdecode

end FrameHeader

namespace Frame

/-- The bytes of a frame with any bytes in the spare field of its header. -/
def encodeWith (f : Frame) (salt : UInt64) (spare : List UInt8) : List UInt8 :=
  (f.header salt).encodeWith spare ++ f.payload

theorem length_encodeWith (f : Frame) (salt : UInt64) {spare : List UInt8}
    (hspare : spare.length = 4) :
    (f.encodeWith salt spare).length = FrameHeader.size + f.payload.length := by
  rw [encodeWith, List.length_append, FrameHeader.length_encodeWith _ hspare]

@[simp] theorem length_encode (f : Frame) (salt : UInt64) :
    (f.encode salt).length = FrameHeader.size + f.payload.length := by
  simp [encode]

end Frame

end TxnStore
