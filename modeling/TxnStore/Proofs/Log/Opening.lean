import TxnStore.Proofs.Log.Appending

/-!
# Opening a log

A device without bytes becomes a log that holds nothing. A device that has just the contents of a
log becomes a log that holds the same frames, and keeps its bytes.
-/

namespace TxnStore

open TxnStore.Action

namespace RedoLog

variable {options : LogOptions} {d d' : Device} {header : LogHeader} {frames : List Frame}

/-- The log that is opened on a device with the contents of a log. -/
def reopened (options : LogOptions) (header : LogHeader) (frames : List Frame) (d : Device) :
    RedoLog :=
  { device := d
    sync := options.sync
    header
    appendOffset := (header.contents frames).length
    nextLsn := lsnAfter header frames
    unsynced := 0
    poisoned := false
    stats := ⟨0, 0, 0, 0⟩ }

theorem toNat_lsnAfter (h : IsSequence header.startLsn frames) :
    (lsnAfter header frames).val.toNat = header.startLsn.val.toNat + frames.length := by
  have hbounded := h.bounded
  unfold lsnAfter
  cases hlast : frames.getLast? with
  | none =>
    rw [List.getLast?_eq_none_iff.mp hlast]
    rfl
  | some f =>
    rw [List.getLast?_eq_getElem?] at hlast
    -- The last frame has the last number, and the next one is not yet beyond the words.
    obtain ⟨hlt, -⟩ := List.getElem?_eq_some_iff.mp hlast
    have hlsn := h.lsn hlast
    show f.lsn.next.val.toNat = _
    rw [IsSequence.toNat_next (by omega), hlsn]
    omega

theorem holds_reopened (hseq : IsSequence header.startLsn frames)
    (hbytes : d.bytes = header.contents frames) :
    (reopened options header frames d).Holds frames where
  sequence := hseq
  nextLsn := toNat_lsnAfter hseq
  appendOffset := rfl
  stored := by
    show header.contents frames <+: d.bytes
    exact hbytes ▸ List.prefix_refl _
  unpoisoned := fun _ => hbytes

/-! ## The steps of opening -/

theorem runOn_length (hlength : d.faults.length = false) :
    Device.length.runOn d = (.ok d.size, d) := by
  rw [Device.runOn_length, hlength]
  rfl

/-- Nothing lies behind the end of a device. -/
theorem runOn_cutTail_size (hlength : d.faults.length = false) :
    (cutTail d.size).runOn d = (.ok 0, d) := by
  rw [cutTail, runOn_bind, runOn_length hlength]
  simp

/-- What lies behind an offset is cut off. -/
theorem runOn_cutTail {d : Device} {n : Nat} (hlength : d.faults.length = false)
    (htruncate : d.faults.truncate = false) (hn : n ≤ d.size) :
    (cutTail n).runOn d = (.ok (d.size - n), { d with bytes := d.bytes.take n }) := by
  rw [cutTail, runOn_bind, runOn_length hlength]
  have hsize : d.size = d.bytes.length := rfl
  by_cases hlt : n < d.size
  · have hnone : n - d.bytes.length = 0 := by omega
    simp [hlt, Device.runOn_truncate, htruncate, Device.resize, hnone, Except.map]
  · have hall : d.bytes.take n = d.bytes := List.take_of_length_le (by omega)
    simp [hlt, hall]

/-- A head that is there is read, and nothing is written. -/
theorem runOn_loadHeader_head (options : LogOptions) {head rest : List UInt8}
    (hread : d.faults.read = false) (hlength : d.faults.length = false)
    (hhead : head.length = LogHeader.size) (hbytes : d.bytes = head ++ rest) :
    (loadHeader options).runOn d =
      ((LogHeader.decode head).bind fun header =>
        if header.salt = options.salt then .ok header else .error (.corruption .logSalt), d) := by
  have hlong : ¬ d.size < LogHeader.size := by
    rw [Device.size, hbytes, List.length_append, hhead]
    omega
  -- The first bytes are the header, whether it can be decoded or not.
  have hstart : d.bytes.drop 0 = head ++ rest := hbytes
  have hheader := Device.runOn_read_run hread hstart (Nat.zero_le _)
  rw [hhead] at hheader
  rw [loadHeader, runOn_bind, runOn_length hlength]
  simp only [if_neg hlong]
  rw [readHeader, runOn_bind, hheader]
  simp only [runOn_bind, runOn_ofExcept]
  cases LogHeader.decode head with
  | error err => rfl
  | ok header =>
    simp only [Except.bind]
    split <;> rfl

/-- A header with the salt of the options is accepted. -/
theorem runOn_loadHeader {head rest : List UInt8} (hread : d.faults.read = false)
    (hlength : d.faults.length = false) (hhead : head.length = LogHeader.size)
    (hdecode : LogHeader.decode head = .ok header) (hsalt : header.salt = options.salt)
    (hbytes : d.bytes = head ++ rest) : (loadHeader options).runOn d = (.ok header, d) := by
  rw [runOn_loadHeader_head options hread hlength hhead hbytes, hdecode]
  simp only [Except.bind, if_pos hsalt]

/-- What is left to do once the header is there and the frames are read. -/
theorem openOn_of_steps {d₁ : Device} {s : LogScan} (hlength : d₁.faults.length = false)
    (hload : (loadHeader options).runOn d = (.ok header, d₁))
    (hframes : (LogScan.start header d₁.size).frames.runOn d₁ = (.ok (frames, s), d₁))
    (hvalid : s.validUpTo = d₁.size) (hsize : d₁.size = (header.contents frames).length) :
    openOn options d = (.ok (reopened options header frames d₁), d₁) := by
  have hopen : (openDevice options).runOn d =
      (.ok fun device => reopened options header frames device, d₁) := by
    rw [openDevice, runOn_bind, hload]
    simp only [runOn_bind, runOn_length hlength, hframes, hvalid, runOn_cutTail_size hlength]
    rw [hsize]
    rfl
  rw [openOn, hopen]

/-- The log that is opened on a device of which only the bytes before an offset are kept. -/
def openedAt (options : LogOptions) (header : LogHeader) (frames : List Frame) (offset : Nat)
    (d : Device) : RedoLog :=
  { device := { d with bytes := d.bytes.take offset }
    sync := options.sync
    header
    appendOffset := offset
    nextLsn := lsnAfter header frames
    unsynced := 0
    poisoned := false
    stats := ⟨0, 0, 0, d.size - offset⟩ }

/-- What follows the last frame that was read is cut off. -/
theorem openOn_of_scan {d₁ : Device} {s : LogScan} (hlength : d₁.faults.length = false)
    (htruncate : d₁.faults.truncate = false)
    (hload : (loadHeader options).runOn d = (.ok header, d₁))
    (hframes : (LogScan.start header d₁.size).frames.runOn d₁ = (.ok (frames, s), d₁))
    (hvalid : s.validUpTo ≤ d₁.size) :
    openOn options d =
      (.ok (openedAt options header frames s.validUpTo d₁),
        (openedAt options header frames s.validUpTo d₁).device) := by
  have hopen : (openDevice options).runOn d =
      (.ok fun device => { openedAt options header frames s.validUpTo d₁ with device },
        (openedAt options header frames s.validUpTo d₁).device) := by
    rw [openDevice, runOn_bind, hload]
    simp only [runOn_bind, runOn_length hlength, hframes, runOn_cutTail hlength htruncate hvalid]
    rfl
  rw [openOn, hopen]

/-! ## A new log -/

/-- A new log has the header alone on its device. -/
theorem eq_of_runOn_format (h : (format options).runOn d = (.ok header, d')) :
    header = ⟨options.salt, options.startLsn⟩ ∧ d' = { d with bytes := header.encode } := by
  obtain ⟨_, d₁, hwrite, h⟩ := exists_of_runOn_bind h
  obtain ⟨_, d₂, htruncate, h⟩ := exists_of_runOn_bind h
  cases h
  refine ⟨rfl, ?_⟩
  rw [Device.eq_of_runOn_truncate htruncate, Device.eq_of_runOn_write hwrite, resize_store_header,
    Device.store_zero d (LogHeader.encode_ne_nil _)]

theorem exists_of_openOn {log : RedoLog} (h : openOn options d = (.ok log, d')) :
    d.faults.length = false ∧ ∃ header d₁, (loadHeader options).runOn d = (.ok header, d₁) := by
  -- The device told its length, as nothing was loaded otherwise.
  rw [openOn] at h
  split at h
  · rename_i make d₁ hopen
    obtain ⟨header, d₂, hload, -⟩ := exists_of_runOn_bind hopen
    refine ⟨?_, header, d₂, hload⟩
    obtain ⟨n, d₃, hlength, -⟩ := exists_of_runOn_bind hload
    rw [Device.runOn_length] at hlength
    cases hf : d.faults.length with
    | false => rfl
    | true => simp [hf] at hlength
  · simp at h

/-- Opening a device without bytes makes a log that holds nothing, unless it fails. -/
theorem eq_of_openOn_empty {log : RedoLog} (hempty : d.bytes = [])
    (h : openOn options d = (.ok log, d')) :
    log = reopened options ⟨options.salt, options.startLsn⟩ [] d' ∧
      d' = { d with bytes := LogHeader.encode ⟨options.salt, options.startLsn⟩ } := by
  obtain ⟨hlength, header, d₁, hload⟩ := exists_of_openOn h
  have hshort : d.size < LogHeader.size := by
    rw [Device.size, hempty]
    decide
  -- The device is too short for a header, hence a new one is written.
  have hformat := hload
  rw [loadHeader, runOn_bind, runOn_length hlength] at hformat
  simp only [if_pos hshort] at hformat
  obtain ⟨rfl, rfl⟩ := eq_of_runOn_format hformat
  -- The scan of the new log ends at once, so that it does not read.
  generalize hd₁ :
    Device.mk (LogHeader.encode ⟨options.salt, options.startLsn⟩) d.backing d.faults = d₁ at hload ⊢
  have hbytes : d₁.bytes = LogHeader.contents ⟨options.salt, options.startLsn⟩ [] := by
    rw [← hd₁, LogHeader.contents_nil]
  have hsize : d₁.size = LogHeader.size := by
    rw [Device.size, hbytes, LogHeader.contents_nil, LogHeader.length_encode]
  have hnext := LogScan.runOn_next_of_end
    (s := LogScan.start ⟨options.salt, options.startLsn⟩ d₁.size)
    (by show d₁.size < LogHeader.size + FrameHeader.size; rw [hsize]; decide) d₁
  have hframes : (LogScan.start ⟨options.salt, options.startLsn⟩ d₁.size).frames.runOn d₁ =
      (.ok ([], (LogScan.start ⟨options.salt, options.startLsn⟩ d₁.size).stop), d₁) := by
    rw [LogScan.frames, LogScan.collect, runOn_bind, hnext]
    rfl
  have hlength₁ : d₁.faults.length = false := by
    rw [← hd₁]
    exact hlength
  have hopen := openOn_of_steps hlength₁ hload hframes hsize.symm (congrArg List.length hbytes)
  rw [h] at hopen
  cases hopen
  exact ⟨rfl, rfl⟩

/-- A new log in memory. -/
def fresh (options : LogOptions) : RedoLog :=
  let header : LogHeader := ⟨options.salt, options.startLsn⟩
  reopened options header [] (Device.ofBytes header.encode)

theorem openOn_fresh (options : LogOptions) :
    openOn options (Device.ofBytes []) = (.ok (fresh options), (fresh options).device) := by
  obtain ⟨log, d', hopen⟩ : ∃ log d', openOn options (Device.ofBytes []) = (.ok log, d') :=
    ⟨_, _, rfl⟩
  obtain ⟨rfl, rfl⟩ := eq_of_openOn_empty rfl hopen
  exact hopen

/-! ## A log that was written before -/

/-- Opening a device with a header and chained frames leaves it as it is. -/
theorem openOn_chained {stored : List UInt8} (hread : d.faults.read = false)
    (hlength : d.faults.length = false) (hsalt : header.salt = options.salt)
    (hchained : Frame.Chained header none frames stored)
    (hbytes : d.bytes = header.encode ++ stored) :
    openOn options d = (.ok (reopened options header frames d), d) := by
  -- The scan finds all frames, and so nothing is cut off.
  have hsize : d.size = (header.encode ++ stored).length := congrArg List.length hbytes
  have hload :=
    runOn_loadHeader hread hlength header.length_encode header.decode_encode hsalt hbytes
  have hbytes' : d.bytes = header.encode ++ stored ++ [] := by rw [hbytes, List.append_nil]
  obtain ⟨s, hframes, hvalid⟩ :=
    LogScan.runOn_frames_chained hread header.length_encode hchained hbytes'
  rw [← hsize] at hframes hvalid
  refine openOn_of_steps hlength hload hframes hvalid ?_
  rw [hsize, LogHeader.contents, List.length_append, List.length_append, hchained.length_eq]

/-- Opening a device with the contents of a log gives a log that holds its frames. -/
theorem openOn_contents (hread : d.faults.read = false) (hlength : d.faults.length = false)
    (hsalt : header.salt = options.salt) (hseq : IsSequence header.startLsn frames)
    (hbytes : d.bytes = header.contents frames) :
    openOn options d = (.ok (reopened options header frames d), d) :=
  openOn_chained hread hlength hsalt (hseq.chained (UInt64.le_refl _) rfl) hbytes

end RedoLog

end TxnStore
