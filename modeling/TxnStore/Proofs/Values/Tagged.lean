import TxnStore.Proofs.Values.Spelling

/-!
# Values in the tagged form

The tagged codec takes values of any shape that are not nested too deep. What it has written is read
back as the same value if the columns of each row can be counted in four bytes. Nothing sees to
that: a row with more columns is written too, with a count that is cut to four bytes, and what is
read is not this row.
-/

namespace TxnStore

open TxnStore.Action Reader

namespace Value

variable {p q : Value → Prop}

mutual
theorem every_and_iff (v : Value) :
    v.Every (fun w => p w ∧ q w) ↔ v.Every p ∧ v.Every q := by
  -- The recursion over the value is mutual with that over its columns.
  match v with
  | .null | .bool _ | .int _ | .text _ | .bytes _ => exact Iff.rfl
  | .row columns =>
    have hcolumns := everyIn_and_iff columns
    constructor
    · rintro ⟨⟨hp, hq⟩, hboth⟩
      obtain ⟨hps, hqs⟩ := hcolumns.mp hboth
      exact ⟨⟨hp, hps⟩, hq, hqs⟩
    · rintro ⟨⟨hp, hps⟩, hq, hqs⟩
      exact ⟨⟨hp, hq⟩, hcolumns.mpr ⟨hps, hqs⟩⟩

theorem everyIn_and_iff (columns : List Value) :
    EveryIn (fun w => p w ∧ q w) columns ↔ EveryIn p columns ∧ EveryIn q columns := by
  match columns with
  | [] => exact ⟨fun _ => ⟨trivial, trivial⟩, fun _ => trivial⟩
  | v :: rest =>
    have hv := every_and_iff v
    have hrest := everyIn_and_iff rest
    constructor
    · rintro ⟨hboth, hboths⟩
      obtain ⟨hp, hq⟩ := hv.mp hboth
      obtain ⟨hps, hqs⟩ := hrest.mp hboths
      exact ⟨⟨hp, hps⟩, hq, hqs⟩
    · rintro ⟨⟨hp, hps⟩, hq, hqs⟩
      exact ⟨hv.mpr ⟨hp, hq⟩, hrest.mpr ⟨hps, hqs⟩⟩
end

end Value

namespace Codec

variable {v : Value} {bs : List UInt8}

/-- A codec that refuses a value leaves the buffer as it was. -/
theorem runOn_put_of_error {c : Codec} {err : StoreError} (h : c.encode v = .error err)
    (out : List UInt8) : (c.put v).runOn out = (.error err, out) := by
  cases c with
  | tagged =>
    -- What was written of the value is cut off again.
    obtain ⟨more, hrun, -⟩ := writes_putTagged v 0 out
    have hencode : encodeTagged 0 v = .error err := h
    rw [hencode] at hrun
    rw [put, Writer.runOn_restoring, hrun]
    simp only [Except.map, List.take_left]
  | _ => cases v <;> cases h <;> rfl

/-- The tagged form of a value is read back exactly if all that is counted in it fits. -/
theorem finds_tagged_iff (h : encodeTagged 0 v = .ok bs) :
    Finds tagged.decode bs v ↔ v.Every Value.Fits := by
  constructor
  · intro hfinds
    obtain ⟨_, -, -, hfits⟩ := takes_decodeTagged (Nat.zero_add _) _ _ _ (hfinds 0 [])
    exact hfits
  · exact fun hfits => finds_encodeTagged v (Nat.zero_add _) hfits h

/-! ## The main statement -/

/-- Take any value whose texts and runs of bytes take less than 2^32 bytes each, and any buffer. If
a part of the value lies under more than 64 rows, the tagged codec fails and leaves the buffer as it
was. Otherwise it writes bytes behind the buffer; and these are read back as the value, whatever
follows them and nothing of it being taken, exactly if each row of the value has less than 2^32
columns. -/
theorem runOn_put_tagged (v : Value) (hruns : v.Every Value.HasShortRun) (out : List UInt8) :
    (maxDepth < v.nesting → ∃ err, (tagged.put v).runOn out = (.error err, out)) ∧
      (v.nesting ≤ maxDepth → ∃ bs, (tagged.put v).runOn out = (.ok (), out ++ bs) ∧
        (Finds tagged.decode bs v ↔ v.Every Value.HasFewColumns)) := by
  have hok := isOk_encodeTagged v 0
  rw [Nat.zero_add] at hok
  -- Whether the encoding succeeds is told by the nesting alone.
  cases hencode : encodeTagged 0 v with
  | error err =>
    rw [hencode] at hok
    have hdeep : ¬ v.nesting ≤ maxDepth := of_decide_eq_false hok.symm
    exact ⟨fun _ => ⟨err, runOn_put_of_error (c := tagged) hencode out⟩, fun h => absurd h hdeep⟩
  | ok bs =>
    rw [hencode] at hok
    have hflat : v.nesting ≤ maxDepth := of_decide_eq_true hok.symm
    have hput : Writer.Writes (tagged.put v) (.ok bs) := hencode ▸ writes_put tagged v
    refine ⟨fun h => absurd hflat (Nat.not_le_of_lt h), fun _ => ⟨bs, hput.ok out, ?_⟩⟩
    exact (finds_tagged_iff hencode).trans
      ((Value.every_and_iff v).trans (and_iff_right hruns))

/-- A row within a row within a row is written behind what the buffer held, and read back. -/
theorem runOn_put_tagged_of_nested_rows :
    let v : Value := .row [.text "a", .row [.bytes [1, 2], .row []]]
    v.Every Value.HasShortRun ∧ v.nesting = 2 ∧ v.Every Value.HasFewColumns ∧
      ∃ bs, (tagged.put v).runOn [9] = (.ok (), 9 :: bs) ∧ Finds tagged.decode bs v := by
  intro v
  have hruns : v.Every Value.HasShortRun :=
    ⟨trivial, (by decide : (Text.toBytes "a").length < UInt32.size),
      ⟨trivial, (by decide : [1, 2].length < UInt32.size), ⟨trivial, trivial⟩, trivial⟩, trivial⟩
  have hrows : v.Every Value.HasFewColumns :=
    ⟨(by decide : 2 < UInt32.size), trivial,
      ⟨(by decide : 2 < UInt32.size), trivial, ⟨(by decide : 0 < UInt32.size), trivial⟩, trivial⟩,
      trivial⟩
  obtain ⟨bs, hrun, hfinds⟩ := (runOn_put_tagged v hruns [9]).2 (by decide)
  exact ⟨hruns, by decide, hrows, bs, hrun, hfinds.mpr hrows⟩

/-! ## Rows with too many columns -/

theorem encodeColumns_replicate_null (n : Nat) {depth : Nat} (hdepth : depth ≤ maxDepth) :
    encodeColumns depth (List.replicate n .null) = .ok (List.replicate n 0) := by
  induction n with
  | zero => rfl
  | succ n ih =>
    have hnull : encodeTagged depth .null = .ok [0] := by
      rw [encodeTagged, if_neg (Nat.not_lt_of_le hdepth)]
    simp only [List.replicate_succ, encodeColumns, hnull, ih]
    rfl

theorem everyIn_hasShortRun_replicate_null (n : Nat) :
    Value.EveryIn Value.HasShortRun (List.replicate n .null) := by
  induction n with
  | zero => trivial
  | succ n ih => exact ⟨trivial, ih⟩

/-- A row whose columns are as many as there are words, or a multiple of that, is written as a row
without columns before its columns. -/
theorem encodeTagged_replicate_null {n : Nat} (hcount : UInt32.ofNat n = 0) :
    encodeTagged 0 (.row (List.replicate n .null)) =
      .ok ([6, 0, 0, 0, 0] ++ List.replicate n 0) := by
  have hcolumns := encodeColumns_replicate_null n (by decide : 0 + 1 ≤ maxDepth)
  rw [encodeTagged, if_neg (by decide)]
  simp only [hcolumns, List.length_replicate, hcount]
  rfl

/-- A row of 2^32 nulls is written, and a row without columns is read. -/
theorem runOn_put_tagged_of_too_many_columns :
    let v : Value := .row (List.replicate UInt32.size .null)
    v.Every Value.HasShortRun ∧ v.nesting ≤ maxDepth ∧
      ∃ bs, (tagged.put v).runOn [] = (.ok (), bs) ∧ ¬ Finds tagged.decode bs v ∧
        Action.runOn tagged.decode (.ofBytes bs) =
          (.ok (.row []), ⟨5, List.replicate UInt32.size 0⟩) := by
  intro v
  let bs : List UInt8 := [6, 0, 0, 0, 0] ++ List.replicate UInt32.size 0
  have hencode : encodeTagged 0 v = .ok bs := encodeTagged_replicate_null (by decide)
  -- The row itself is not nested.
  have hflat : v.nesting ≤ maxDepth := by
    have hok := isOk_encodeTagged v 0
    rw [hencode, Nat.zero_add] at hok
    exact of_decide_eq_true hok.symm
  have hput : Writer.Writes (tagged.put v) (.ok bs) := hencode ▸ writes_put tagged v
  -- What is written first is the encoding of an empty row.
  have hempty : Finds tagged.decode [6, 0, 0, 0, 0] (.row []) :=
    finds_encodeTagged (.row []) (Nat.zero_add _)
      ⟨⟨trivial, (by decide : 0 < UInt32.size)⟩, trivial⟩ rfl
  refine ⟨⟨trivial, everyIn_hasShortRun_replicate_null _⟩, hflat, _, hput.ok [], fun hfinds => ?_,
    hempty 0 (List.replicate UInt32.size 0)⟩
  -- The columns would be counted in four bytes.
  obtain ⟨⟨-, hfew⟩, -⟩ := (finds_tagged_iff hencode).mp hfinds
  have hcount : (List.replicate UInt32.size Value.null).length < UInt32.size := hfew
  rw [List.length_replicate] at hcount
  exact Nat.lt_irrefl _ hcount

end Codec

end TxnStore
