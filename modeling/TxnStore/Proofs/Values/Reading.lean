import TxnStore.Bytes.Buffer
import TxnStore.Proofs.Log.Encoding
import TxnStore.Value.Codec

/-!
# Reading values back

A reader finds a value in bytes if it takes just these bytes from any input that begins with them.
So what stands one behind the other is read one after the other, and what a codec has written is
read back as it was.
-/

namespace TxnStore

open TxnStore.Action

/-! ## Readers and the bytes they take -/

namespace Reader

/-- The reader takes exactly the bytes and finds the value, whatever follows. -/
def Finds {α : Type} (r : Reader α) (bs : List UInt8) (a : α) : Prop :=
  ∀ offset rest, Action.runOn r ⟨offset, bs ++ rest⟩ = (.ok a, ⟨offset + bs.length, rest⟩)

variable {α β : Type} {r : Reader α} {bs cs : List UInt8} {a : α} {b : β}

theorem Finds.pure (a : α) : Finds (Pure.pure a : Reader α) [] a := fun _ _ => rfl

/-- Two readers one after the other. -/
theorem Finds.bind {f : α → Reader β} (hr : Finds r bs a) (hf : Finds (f a) cs b) :
    Finds (r >>= f) (bs ++ cs) b := by
  intro offset rest
  have hsecond := hf (offset + bs.length) rest
  rw [Nat.add_assoc, ← List.length_append] at hsecond
  rw [runOn_bind, List.append_assoc, hr]
  exact hsecond

theorem Finds.map (f : α → β) (hr : Finds r bs a) : Finds (f <$> r) bs (f a) := by
  intro offset rest
  rw [runOn_map, hr]
  rfl

/-- The value that is found at the end of the bytes. -/
theorem Finds.read (hr : Finds r bs a) : r.read bs = .ok a := by
  have hrun := hr 0 []
  rw [List.append_nil] at hrun
  rw [Reader.read, Cursor.ofBytes, hrun]

theorem finds_take (bs : List UInt8) : Finds (take bs.length) bs bs := by
  intro offset rest
  have hroom : bs.length ≤ (bs ++ rest).length := by simp
  rw [take, runOn_bind, runOn_get]
  simp only [Cursor.remaining, if_pos hroom, Cursor.advance, List.take_left, List.drop_left]
  rfl

theorem finds_byte (v : UInt8) : Finds byte [v] v := by
  have hv : UInt8.ofNat (BigEndian.decode [v]) = v := by simp [BigEndian.decode]
  have htake : Finds (take 1) [v] [v] := finds_take [v]
  intro offset rest
  rw [byte, runOn_bind, htake]
  simp only [hv, runOn_pure]

theorem finds_uint32 (v : UInt32) : Finds uint32 (BigEndian.ofUInt32 v) v := by
  have htake := (finds_take (BigEndian.ofUInt32 v)).map BigEndian.toUInt32
  rwa [BigEndian.length_ofUInt32, BigEndian.toUInt32_ofUInt32] at htake

theorem finds_int64 (v : Int64) : Finds int64 (BigEndian.ofInt64 v) v := by
  have hv : BigEndian.toInt64 (BigEndian.ofInt64 v) = v := by
    rw [BigEndian.toInt64, BigEndian.ofInt64, BigEndian.toUInt64_ofUInt64]
    rfl
  have htake := (finds_take (BigEndian.ofInt64 v)).map BigEndian.toInt64
  rwa [BigEndian.ofInt64, BigEndian.length_ofUInt64, ← BigEndian.ofInt64, hv] at htake

/-- A run is read back if its length fits into four bytes. -/
theorem finds_run (h : bs.length < UInt32.size) : Finds run (Buffer.ofRun bs) bs := by
  have hlength : (UInt32.ofNat bs.length).toNat = bs.length := by
    rw [UInt32.toNat_ofNat']
    exact Nat.mod_eq_of_lt h
  -- The length is read first, and then as many bytes as it says.
  have htake := finds_take bs
  rw [← hlength] at htake
  exact (finds_uint32 _).bind htake

theorem finds_text {s : String} (h : (Text.toBytes s).length < UInt32.size) :
    Finds text (Buffer.ofText s) s := by
  have hrun := finds_run h
  intro offset rest
  rw [text, runOn_bind, Buffer.ofText, hrun]
  simp only [Text.ofBytes?_toBytes, runOn_pure]

end Reader

/-! ## Lengths that fit -/

namespace Value

mutual
/-- A property of a value and of all that lies in its rows. -/
def Every (p : Value → Prop) : Value → Prop
  | row columns => p (row columns) ∧ EveryIn p columns
  | v => p v

/-- A property of columns and of all that lies in them. -/
def EveryIn (p : Value → Prop) : List Value → Prop
  | [] => True
  | v :: rest => Every p v ∧ EveryIn p rest
end

/-- A text or a run of bytes takes less than 2^32 bytes. -/
def HasShortRun : Value → Prop
  | text s => (Text.toBytes s).length < UInt32.size
  | bytes bs => bs.length < UInt32.size
  | _ => True

/-- A row has less than 2^32 columns. -/
def HasFewColumns : Value → Prop
  | row columns => columns.length < UInt32.size
  | _ => True

/-- What is counted in the tagged form of the value fits into four bytes. -/
def Fits (v : Value) : Prop := v.HasShortRun ∧ v.HasFewColumns

end Value

/-! ## What codecs have written -/

theorem Buffer.length_ofRun (bs : List UInt8) : (ofRun bs).length = 4 + bs.length := by
  rw [ofRun, List.length_append, BigEndian.length_ofUInt32]

namespace Codec

open Reader

/-- The tagged form of a value has at least the byte of its tag. -/
theorem length_encodeTagged_pos {depth : Nat} {v : Value} {bs : List UInt8}
    (h : encodeTagged depth v = .ok bs) : 0 < bs.length := by
  unfold encodeTagged at h
  split at h
  · cases h
  · split at h
    all_goals first
      | (cases h; simp)
      | (split at h <;> cases h; simp)

/-- The tagged form of a row is the number of its columns and their tagged forms. -/
theorem encodeTagged_row {depth : Nat} {columns : List Value} {bs : List UInt8}
    (h : encodeTagged depth (.row columns) = .ok bs) :
    ∃ cs, encodeColumns (depth + 1) columns = .ok cs ∧
      bs = [6] ++ (BigEndian.ofUInt32 (UInt32.ofNat columns.length) ++ cs) := by
  unfold encodeTagged at h
  -- A row that is too deep is refused.
  split at h
  · cases h
  · cases hcolumns : encodeColumns (depth + 1) columns with
    | error err => simp [hcolumns] at h
    | ok cs =>
      simp only [hcolumns] at h
      cases h
      exact ⟨cs, rfl, rfl⟩

/-- The tagged forms of columns are those of the first one and of the others. -/
theorem encodeColumns_cons {depth : Nat} {v : Value} {rest : List Value} {bs : List UInt8}
    (h : encodeColumns depth (v :: rest) = .ok bs) :
    ∃ head more, encodeTagged depth v = .ok head ∧ encodeColumns depth rest = .ok more ∧
      bs = head ++ more := by
  unfold encodeColumns at h
  split at h
  · cases h
  · rename_i head hhead
    split at h
    · cases h
    · rename_i more hmore
      cases h
      exact ⟨head, more, hhead, hmore, rfl⟩

/-- Columns take at least as many bytes as there are of them. -/
theorem length_le_encodeColumns {depth : Nat} {columns : List Value} {bs : List UInt8}
    (h : encodeColumns depth columns = .ok bs) : columns.length ≤ bs.length := by
  induction columns generalizing bs with
  | nil => simp
  | cons v rest ih =>
    obtain ⟨head, more, hhead, hmore, rfl⟩ := encodeColumns_cons h
    have hpos := length_encodeTagged_pos hhead
    have hrest := ih hmore
    simp only [List.length_cons, List.length_append]
    omega

mutual
/-- Lengths fit if the whole does. -/
theorem every_fits_of_short (v : Value) {depth : Nat} {bs : List UInt8}
    (hshort : bs.length < UInt32.size) (h : encodeTagged depth v = .ok bs) :
    v.Every Value.Fits := by
  -- Values of fixed length always fit.
  match v, h with
  | .null, _ | .bool _, _ | .int _, _ => exact ⟨trivial, trivial⟩
  | .text s, h =>
    unfold encodeTagged at h
    split at h
    · cases h
    · cases h
      rw [List.length_cons, Buffer.ofText, Buffer.length_ofRun] at hshort
      exact ⟨show (Text.toBytes s).length < UInt32.size by omega, trivial⟩
  | .bytes run, h =>
    unfold encodeTagged at h
    split at h
    · cases h
    · cases h
      rw [List.length_cons, Buffer.length_ofRun] at hshort
      exact ⟨show run.length < UInt32.size by omega, trivial⟩
  -- Every column takes a byte at least, so that there are fewer columns than bytes.
  | .row columns, h =>
    obtain ⟨cs, hcolumns, rfl⟩ := encodeTagged_row h
    have hcount := length_le_encodeColumns hcolumns
    rw [List.length_append, List.length_append] at hshort
    exact ⟨⟨trivial, show columns.length < UInt32.size by omega⟩,
      everyIn_fits_of_short columns (by omega) hcolumns⟩

theorem everyIn_fits_of_short (columns : List Value) {depth : Nat} {bs : List UInt8}
    (hshort : bs.length < UInt32.size) (h : encodeColumns depth columns = .ok bs) :
    Value.EveryIn Value.Fits columns := by
  match columns, h with
  | [], _ => trivial
  | v :: rest, h =>
    obtain ⟨head, more, hhead, hmore, rfl⟩ := encodeColumns_cons h
    rw [List.length_append] at hshort
    exact ⟨every_fits_of_short v (by omega) hhead, everyIn_fits_of_short rest (by omega) hmore⟩
end

mutual
/-- A value in the tagged form is read back, if around it as many rows are allowed as when it was
written. -/
theorem finds_encodeTagged (v : Value) {depth room : Nat} {bs : List UInt8}
    (hroom : depth + room = maxDepth + 1) (hfits : v.Every Value.Fits)
    (h : encodeTagged depth v = .ok bs) : Finds (decodeTagged room) bs v := by
  unfold encodeTagged at h
  split at h
  · cases h
  · rename_i hdepth
    -- The writer was not too deep, hence the reader is allowed one row more.
    obtain ⟨room, rfl⟩ : ∃ n, room = n + 1 := ⟨room - 1, by omega⟩
    unfold decodeTagged
    match v, h with
    | .null, h =>
      cases h
      exact (finds_byte 0).bind (Finds.pure _)
    | .bool false, h =>
      cases h
      exact (finds_byte 1).bind (Finds.pure _)
    | .bool true, h =>
      cases h
      exact (finds_byte 2).bind (Finds.pure _)
    | .int n, h =>
      cases h
      exact (finds_byte 3).bind ((finds_int64 n).map Value.int)
    | .text s, h =>
      cases h
      exact (finds_byte 4).bind ((finds_text hfits.1).map Value.text)
    | .bytes run, h =>
      cases h
      exact (finds_byte 5).bind ((finds_run hfits.1).map Value.bytes)
    | .row columns, h =>
      -- The columns lie one level deeper.
      cases hcolumns : encodeColumns (depth + 1) columns with
      | error err => simp [hcolumns] at h
      | ok cs =>
        simp only [hcolumns] at h
        cases h
        -- Their number is a word.
        have hlength : (UInt32.ofNat columns.length).toNat = columns.length := by
          rw [UInt32.toNat_ofNat']
          exact Nat.mod_eq_of_lt hfits.1.2
        have hfinds := finds_encodeColumns columns (by omega : depth + 1 + room = maxDepth + 1)
          hfits.2 hcolumns
        rw [← hlength] at hfinds
        exact (finds_byte 6).bind ((finds_uint32 _).bind (hfinds.map Value.row))

theorem finds_encodeColumns (columns : List Value) {depth room : Nat} {bs : List UInt8}
    (hroom : depth + room = maxDepth + 1) (hfits : Value.EveryIn Value.Fits columns)
    (h : encodeColumns depth columns = .ok bs) :
    Finds (Reader.replicate columns.length (decodeTagged room)) bs columns := by
  -- By recursion on the columns, one after the other.
  match columns, h with
  | [], h =>
    cases h
    exact Finds.pure []
  | v :: rest, h =>
    obtain ⟨head, more, hhead, hmore, rfl⟩ := encodeColumns_cons h
    have hfirst := finds_encodeTagged v hroom hfits.1 hhead
    have hothers := finds_encodeColumns rest hroom hfits.2 hmore
    exact hfirst.bind (hothers.map (v :: ·))
end

/-- What a codec has written is read back, if its length fits into four bytes. -/
theorem finds_encode {c : Codec} {v : Value} {bs : List UInt8} (hshort : bs.length < UInt32.size)
    (h : c.encode v = .ok bs) : Finds c.decode bs v := by
  -- The codec takes values of its own kind alone.
  unfold encode at h
  split at h
  · cases h
    exact (finds_int64 _).map Value.int
  · cases h
    rw [Buffer.ofText, Buffer.length_ofRun] at hshort
    exact (finds_text (by omega)).map Value.text
  · cases h
    rw [Buffer.length_ofRun] at hshort
    exact (finds_run (by omega)).map Value.bytes
  · exact finds_encodeTagged v (Nat.zero_add _) (every_fits_of_short v hshort h) h
  · cases h

end Codec

end TxnStore
