import TxnStore.Proofs.Log.Checksums
import TxnStore.Proofs.Log.Salvage

/-!
# Logs with an altered byte

One byte of a log's file may be changed, wherever it lies. In the header of the file the change is
found when the log is opened. In a frame it is found by the sum over the header of the frame or by
that over its payload, so that a scan stops in front of this frame, and what lies behind it is not
looked at.
-/

namespace TxnStore

open TxnStore.Action

/-! ## Headers -/

namespace LogHeader

variable {guarded bs : List UInt8} {i : Nat} {b : UInt8}

/-- Bytes in front of their sum are not in front of it any more once one of them or of the sum is
changed. -/
theorem sum_ne_of_set_ne {sum : List UInt8} (hguarded : guarded.length = 28)
    (hsum : sum = BigEndian.ofUInt32 (Crc32.ofBytes guarded))
    (hset : (guarded ++ sum).set i b ≠ guarded ++ sum) :
    BigEndian.toUInt32 (slice ((guarded ++ sum).set i b) 28 4) ≠
      Crc32.ofBytes (slice ((guarded ++ sum).set i b) 0 28) := by
  have hlength : sum.length = 4 := hsum ▸ BigEndian.length_ofUInt32 _
  -- The front and the back can be cut apart, also after the change of a byte.
  have hfields : ∀ {front back : List UInt8}, front.length = 28 → back.length = 4 →
      slice (front ++ back) 28 4 = back ∧ slice (front ++ back) 0 28 = front :=
    fun {front back} hfront hback =>
      ⟨slice_append_last hfront hback, slice_append List.length_nil hfront⟩
  rcases Nat.lt_or_ge i guarded.length with hi | hi
  · -- The sum stays, and the bytes have another one.
    rw [List.set_append_left _ _ hi] at hset ⊢
    obtain ⟨hback, hfront⟩ := hfields ((List.length_set ..).trans hguarded) hlength
    rw [hback, hfront, hsum, BigEndian.toUInt32_ofUInt32]
    exact (Crc32.ofBytes_set_ne fun heq => hset (by rw [heq])).symm
  · -- The bytes stay, and another sum is behind them.
    rw [List.set_append_right _ _ hi] at hset ⊢
    have hlength' : (sum.set (i - guarded.length) b).length = 4 :=
      (List.length_set ..).trans hlength
    obtain ⟨hback, hfront⟩ := hfields hguarded hlength'
    rw [hback, hfront]
    intro heq
    have hsame := BigEndian.ofUInt32_toUInt32 hlength'
    rw [heq, ← hsum] at hsame
    exact hset (by rw [← hsame])

/-- A header with an altered byte is damaged. -/
theorem exists_of_decode_set {h : LogHeader} (hset : h.encode.set i b ≠ h.encode) :
    ∃ damage, decode (h.encode.set i b) = .error (.corruption damage) := by
  cases hdecode : decode (h.encode.set i b) with
  | error err =>
    obtain ⟨damage, rfl⟩ := exists_of_decode_error hdecode
    exact ⟨damage, rfl⟩
  | ok h' =>
    -- A header is read only where the sum behind it is right.
    have hsum := sum_ne_of_set_ne h.length_guarded rfl hset
    unfold decode encode at hdecode
    rw [if_pos hsum] at hdecode
    repeat
      split at hdecode
      · cases hdecode
    cases hdecode

end LogHeader

namespace FrameHeader

variable {i : Nat} {b : UInt8}

/-- The header of a frame with an altered byte is none. -/
theorem decode_set_eq_none {h : FrameHeader} {spare : List UInt8} (hspare : spare.length = 4)
    (hset : (h.encodeWith spare).set i b ≠ h.encodeWith spare) :
    decode ((h.encodeWith spare).set i b) = none :=
  if_neg (LogHeader.sum_ne_of_set_ne (h.length_guardedWith hspare) rfl hset)

end FrameHeader

/-! ## Frames -/

/-- A frame among chained frames stands between those before it and those behind it. -/
theorem Frame.Chained.split {header : LogHeader} {expected : Option Lsn} {frames : List Frame}
    {stored : List UInt8} (h : Chained header expected frames stored) {k : Nat}
    (hk : k < frames.length) :
    ∃ front spare back, Chained header expected (frames.take k) front ∧ spare.length = 4 ∧
      frames[k].payload.length < UInt32.size ∧
      stored = front ++ (frames[k].encodeWith header.salt spare ++ back) := by
  -- By induction on the frames, up to the one that is asked for.
  induction h generalizing k with
  | nil => cases hk
  | @cons expected f rest bs spare hspare hshort hstarts hexpected hrest ih =>
    cases k with
    | zero => exact ⟨[], spare, bs, .nil _, hspare, hshort, rfl⟩
    | succ k =>
      obtain ⟨front, spare', back, hfront, hspare', hshort', hstored⟩ :=
        ih (Nat.lt_of_succ_lt_succ hk)
      refine ⟨_, spare', back, .cons hspare hshort hstarts hexpected hfront, hspare', hshort', ?_⟩
      rw [hstored, List.append_assoc]
      rfl

namespace LogScan

variable {d : Device} {s : LogScan}

/-- A scan stops at a payload that does not have the sum of its header. -/
theorem runOn_next_of_wrong_sum {h : FrameHeader} {spare payload rest : List UInt8}
    (hread : d.faults.read = false) (hoffset : s.offset ≤ d.size) (hlimit : s.limit ≤ d.size)
    (hspare : spare.length = 4)
    (hbytes : d.bytes.drop s.offset = h.encodeWith spare ++ (payload ++ rest))
    (hlength : payload.length = h.length.toNat)
    (hsum : Crc32.ofFrame s.header.salt h.txn.val payload ≠ h.checksum) :
    s.next.runOn d = (.ok (none, s.stop), d) := by
  have hsize := h.length_encodeWith hspare
  by_cases hroom : s.limit < s.offset + FrameHeader.size
  · exact runOn_next_of_end hroom d
  by_cases hadmits : s.admits h = true
  · -- The payload is read, and its sum is another one.
    have hheader := Device.runOn_read_run hread hbytes hoffset
    have hpayload : d.bytes.drop (s.offset + FrameHeader.size) = payload ++ rest := by
      rw [← List.drop_drop, hbytes, List.drop_left' hsize]
    have hpayload' := Device.runOn_read_run hread hpayload (by omega)
    rw [hsize] at hheader
    rw [hlength] at hpayload'
    rw [next, if_neg hroom, runOn_bind, hheader]
    simp only [FrameHeader.decode_encodeWith h hspare, hadmits, if_true, runOn_bind, hpayload',
      if_neg hsum]
    rfl
  · -- A header that is not admitted stops the scan before any payload is read.
    refine runOn_next_of_refused hread hoffset hbytes hsize fun h' hdecode => ?_
    rw [FrameHeader.decode_encodeWith h hspare] at hdecode
    cases hdecode
    exact eq_false_of_ne_true hadmits

/-- A scan stops at a frame with an altered byte. -/
theorem runOn_next_of_altered {f : Frame} {spare rest : List UInt8} {i : Nat} {b : UInt8}
    (hread : d.faults.read = false) (hoffset : s.offset ≤ d.size) (hlimit : s.limit ≤ d.size)
    (hspare : spare.length = 4) (hshort : f.payload.length < UInt32.size)
    (hset : (f.encodeWith s.header.salt spare).set i b ≠ f.encodeWith s.header.salt spare)
    (hbytes : d.bytes.drop s.offset = (f.encodeWith s.header.salt spare).set i b ++ rest) :
    s.next.runOn d = (.ok (none, s.stop), d) := by
  have hsize := (f.header s.header.salt).length_encodeWith hspare
  unfold Frame.encodeWith at hset hbytes
  rcases Nat.lt_or_ge i FrameHeader.size with hi | hi
  · -- The header is not one any more.
    rw [List.set_append_left _ _ (hsize ▸ hi)] at hset hbytes
    rw [List.append_assoc] at hbytes
    refine runOn_next_of_refused hread hoffset hbytes ((List.length_set ..).trans hsize)
      fun h hdecode => ?_
    rw [FrameHeader.decode_set_eq_none hspare fun heq => hset (by rw [heq])] at hdecode
    cases hdecode
  · -- The header is whole, and the sum over the payload tells the change.
    rw [List.set_append_right _ _ (hsize ▸ hi), hsize] at hset hbytes
    rw [List.append_assoc] at hbytes
    refine runOn_next_of_wrong_sum hread hoffset hlimit hspare hbytes ?_ ?_
    · rw [List.length_set]
      show f.payload.length = (UInt32.ofNat f.payload.length).toNat
      rw [UInt32.toNat_ofNat', Nat.mod_eq_of_lt hshort]
    · exact Crc32.ofFrame_set_ne _ _ fun heq => hset (by rw [heq])

end LogScan

/-! ## The main statement -/

namespace RedoLog

variable {options : LogOptions} {d : Device} {header : LogHeader} {frames : List Frame}
  {stored : List UInt8} {i k : Nat} {b : UInt8}

/-- A log whose header has an altered byte is damaged. -/
theorem openOn_of_altered_header (hread : d.faults.read = false)
    (hlength : d.faults.length = false) (hset : header.encode.set i b ≠ header.encode)
    (hbytes : d.bytes = header.encode.set i b ++ stored) :
    ∃ damage, openOn options d = (.error (.corruption damage), d) := by
  obtain ⟨damage, hdecode⟩ := LogHeader.exists_of_decode_set hset
  have hsize : (header.encode.set i b).length = LogHeader.size :=
    (List.length_set ..).trans header.length_encode
  have hload := runOn_loadHeader_head options hread hlength hsize hbytes
  rw [hdecode] at hload
  refine ⟨damage, ?_⟩
  rw [openOn, openDevice, runOn_bind, hload]
  rfl

/-- Up to the end of the file, a scan gives the frames before one with an altered byte. -/
theorem exists_front_of_altered (hread : d.faults.read = false)
    (hchained : Frame.Chained header none frames stored)
    (hset : (header.encode ++ stored).set i b ≠ header.encode ++ stored)
    (hbytes : d.bytes = (header.encode ++ stored).set i b) (hk : k < frames.length)
    (hfrom : (header.contents (frames.take k)).length ≤ i)
    (hto : i < (header.contents (frames.take (k + 1))).length) :
    ∃ front rest, Frame.Chained header none (frames.take k) front ∧
      d.bytes = header.encode ++ front ++ rest ∧
      (header.encode ++ front).length = (header.contents (frames.take k)).length ∧
      ∃ s, (LogScan.start header d.size).frames.runOn d = (.ok (frames.take k, s), d) ∧
        s.validUpTo = (header.encode ++ front).length := by
  -- The bytes of the frame with the byte are set apart from those before and behind it.
  obtain ⟨front, spare, back, hfront, hspare, hshort, rfl⟩ := hchained.split hk
  let one := frames[k].encodeWith header.salt spare
  have hfrontEnd : (header.encode ++ front).length = (header.contents (frames.take k)).length := by
    rw [LogHeader.contents, List.length_append, List.length_append, hfront.length_eq]
  have honeEnd : (header.contents (frames.take (k + 1))).length =
      (header.encode ++ front).length + one.length := by
    rw [hfrontEnd, List.take_succ_eq_append_getElem hk, LogHeader.contents, Frame.encodeAll_concat,
      ← List.append_assoc, List.length_append, Frame.length_encode,
      Frame.length_encodeWith _ _ hspare]
    rfl
  -- The byte lies in the bytes of this frame.
  obtain ⟨j, rfl⟩ : ∃ j, i = (header.encode ++ front).length + j :=
    ⟨i - (header.encode ++ front).length, by omega⟩
  have hj : j < one.length := by omega
  have haltered : (header.encode ++ (front ++ (one ++ back))).set
      ((header.encode ++ front).length + j) b =
        header.encode ++ front ++ (one.set j b ++ back) := by
    rw [← List.append_assoc, List.set_append_right _ _ (Nat.le_add_right _ _),
      Nat.add_sub_cancel_left, List.set_append_left _ _ hj]
  have hone : one.set j b ≠ one := fun heq => hset (by
    rw [haltered, heq, List.append_assoc])
  rw [haltered] at hbytes
  have hsize : d.size = (header.encode ++ front).length + (one.set j b ++ back).length := by
    rw [Device.size, hbytes, List.length_append]
  refine ⟨front, _, hfront, hbytes, hfrontEnd, ?_⟩
  rw [hsize]
  -- The scan finds what lies before the frame, and it stops there.
  refine LogScan.runOn_frames_stopping hread header.length_encode hfront hbytes
    fun s hheader hat hinside hlimit => ?_
  subst hheader
  have hdrop : d.bytes.drop s.offset = one.set j b ++ back := by
    rw [hbytes, hat, List.drop_left]
  exact LogScan.runOn_next_of_altered hread hinside (by omega) hspare hshort hone hdrop

/-- Take an intact log, which is a file with a header and chained frames, and change one byte of it
to another value. If the byte lies in the header of the file, the log is damaged and cannot be
opened. If it lies in the bytes of a frame, be it in its header or its payload, opening the log
gives exactly the frames before this one, and the file ends behind them; and a log that was open
gives exactly these frames, too. -/
theorem openOn_altered (hchained : Frame.Chained header none frames stored)
    (hsalt : header.salt = options.salt) (hread : d.faults.read = false)
    (hlength : d.faults.length = false) (htruncate : d.faults.truncate = false)
    (hset : (header.encode ++ stored).set i b ≠ header.encode ++ stored)
    (hbytes : d.bytes = (header.encode ++ stored).set i b) :
    (i < LogHeader.size → ∃ damage, openOn options d = (.error (.corruption damage), d)) ∧
      ∀ k < frames.length, (header.contents (frames.take k)).length ≤ i →
        i < (header.contents (frames.take (k + 1))).length →
          (∃ log, openOn options d = (.ok log, log.device) ∧
            log.device.bytes = d.bytes.take (header.contents (frames.take k)).length ∧
            RedoLog.frames.runOn log = (.ok (frames.take k, log.device.size), log)) ∧
          ∀ log : RedoLog, log.header = header → log.appendOffset = d.size → log.device = d →
            RedoLog.frames.runOn log =
              (.ok (frames.take k, (header.contents (frames.take k)).length), log) := by
  refine ⟨fun hi => ?_, fun k hk hfrom hto => ?_⟩
  · -- A change within the header is found before any frame is read.
    have hi' : i < header.encode.length := header.length_encode.symm ▸ hi
    rw [List.set_append_left _ _ hi'] at hset hbytes
    exact openOn_of_altered_header hread hlength (fun heq => hset (by rw [heq])) hbytes
  obtain ⟨front, rest, hfront, hsplit, hend, s, hframes, hvalid⟩ :=
    exists_front_of_altered hread hchained hset hbytes hk hfrom hto
  constructor
  · -- Opening cuts the device where the scan stopped, and it keeps the frames before that.
    have hload := runOn_loadHeader hread hlength header.length_encode header.decode_encode hsalt
      (hsplit.trans (List.append_assoc ..))
    have hinside : s.validUpTo ≤ d.size := by
      rw [hvalid, Device.size, hsplit]
      exact (List.prefix_append _ rest).length_le
    have hopen := openOn_of_scan hlength htruncate hload hframes hinside
    rw [hvalid] at hopen
    let log := openedAt options header (frames.take k) (header.encode ++ front).length d
    have hkept : log.device.bytes = header.encode ++ front := by
      show d.bytes.take (header.encode ++ front).length = _
      rw [hsplit, List.take_left]
    have hoffset : log.appendOffset = log.device.size := (congrArg List.length hkept).symm
    refine ⟨log, hopen, ?_, runOn_frames_chained hread hfront hkept hoffset⟩
    rw [← hend]
    rfl
  · -- An open log reads the same frames, and leaves its device as it is.
    intro log hheader hoffset hdevice
    subst hdevice hheader
    rw [← hoffset] at hframes
    rw [runOn_frames_of_scan hframes, hvalid, hend]

/-- The length of the second frame is altered, so that it reaches over the end of the file. -/
theorem openOn_altered_length :
    let header : LogHeader := ⟨7, ⟨4⟩⟩
    let first : Frame := ⟨⟨4⟩, ⟨1⟩, [1, 2]⟩
    let frames : List Frame := [first, ⟨⟨5⟩, ⟨2⟩, [3]⟩]
    let stored := Frame.encodeAll header.salt frames
    let options := LogOptions.basic 7 .never
    let d := Device.ofBytes ((header.encode ++ stored).set 85 200)
    Frame.Chained header none frames stored ∧ header.salt = options.salt ∧
      (header.encode ++ stored).set 85 200 ≠ header.encode ++ stored ∧
      ∃ log, openOn options d = (.ok log, log.device) ∧ log.device.bytes = header.contents [first] ∧
        RedoLog.frames.runOn log = (.ok ([first], 66), log) := by
  intro header first frames stored options d
  -- The two frames follow each other, so that they are chained.
  have hseq : IsSequence header.startLsn frames := by
    refine ⟨fun {i f} hf => ?_, by decide, fun {f} hf => ?_⟩
    · match i with
      | 0 | 1 =>
        cases hf
        rfl
      | i + 2 => cases hf
    · simp only [frames, List.mem_cons, List.not_mem_nil, or_false] at hf
      rcases hf with rfl | rfl <;> decide
  have hchained : Frame.Chained header none frames stored :=
    hseq.chained (UInt64.le_refl _) rfl
  have hsalt : header.salt = options.salt := rfl
  have hset : (header.encode ++ stored).set 85 200 ≠ header.encode ++ stored := by decide +kernel
  -- The altered byte belongs to the second frame.
  obtain ⟨-, hframes⟩ :=
    openOn_altered (d := d) hchained hsalt rfl rfl rfl hset rfl
  obtain ⟨⟨log, hopen, hbytes, hiter⟩, -⟩ :=
    hframes 1 (by decide) (by decide +kernel) (by decide +kernel)
  have hkept : log.device.bytes = header.contents [first] :=
    hbytes.trans (by decide +kernel)
  have hsize : log.device.size = 66 := by
    rw [Device.size, hkept]
    decide +kernel
  rw [hsize] at hiter
  exact ⟨hchained, hsalt, hset, log, hopen, hkept, hiter⟩

end RedoLog

end TxnStore
