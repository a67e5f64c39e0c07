import TxnStore.Proofs.Log.Ledger

/-!
# Logs that were cut short

The file of a log may end anywhere behind its header: between two frames, within the header of a
frame or within its payload. The frames that lie wholly before the end are kept. A part of a frame
is recognised by its length alone, be it shorter than the header of a frame or than what this header
announces, and cut off, so that the next frame is put right behind those that are kept.
-/

namespace TxnStore

open TxnStore.Action

/-! ## Parts of frames -/

/-- Bytes of frames that are cut off anywhere are whole frames and a part of the next one. -/
theorem Frame.take_encodeAll (salt : UInt64) (frames : List Frame) (room : Nat) :
    ∃ k part, k ≤ frames.length ∧
      (Frame.encodeAll salt frames).take room = Frame.encodeAll salt (frames.take k) ++ part ∧
      (∀ i < frames.length,
        i < k ↔ (Frame.encodeAll salt (frames.take (i + 1))).length ≤ room) ∧
      (part = [] ∨ ∃ f ∈ frames, part <+: f.encode salt ∧
        part.length < (f.encode salt).length) := by
  -- The room varies: each frame that fits leaves less of it to the others.
  induction frames generalizing room with
  | nil => exact ⟨0, [], Nat.le_refl _, by simp [encodeAll], by simp, .inl rfl⟩
  | cons f rest ih =>
    rw [encodeAll_cons]
    rcases Nat.lt_or_ge room (f.encode salt).length with hcut | hfits
    · -- The first frame is cut already.
      refine ⟨0, (f.encode salt).take room, Nat.zero_le _, ?_, fun i _ => ?_, .inr ⟨f, ?_⟩⟩
      · rw [List.take_append_of_le_length (Nat.le_of_lt hcut)]
        rfl
      · rw [List.take_succ_cons, encodeAll_cons, List.length_append]
        omega
      · refine ⟨List.mem_cons_self, List.take_prefix _ _, ?_⟩
        rw [List.length_take]
        omega
    · -- The first frame is whole, and the cut falls into the others.
      obtain ⟨k, part, hk, htake, hwhole, hpart⟩ := ih (room - (f.encode salt).length)
      refine ⟨k + 1, part, Nat.succ_le_succ hk, ?_, fun i hi => ?_, ?_⟩
      · rw [List.take_append, List.take_of_length_le hfits, htake, List.take_succ_cons,
          encodeAll_cons, List.append_assoc]
      · rw [List.take_succ_cons, encodeAll_cons, List.length_append]
        cases i with
        | zero =>
          have hnone : (encodeAll salt (rest.take 0)).length = 0 := rfl
          omega
        | succ i =>
          have hi' := hwhole i (by simpa using hi)
          omega
      · rcases hpart with hnone | ⟨g, hg, hpart⟩
        · exact .inl hnone
        · exact .inr ⟨g, List.mem_cons_of_mem _ hg, hpart⟩

namespace LogScan

variable {d : Device} {s : LogScan}

/-- A scan stops where the bytes end within a frame. -/
theorem runOn_next_of_part {f : Frame} {salt : UInt64} {part : List UInt8}
    (hread : d.faults.read = false) (hshort : f.payload.length < UInt32.size)
    (hoffset : s.offset ≤ d.size) (hbytes : d.bytes.drop s.offset = part)
    (hlimit : s.limit = s.offset + part.length) (hpart : part <+: f.encode salt)
    (hcut : part.length < (f.encode salt).length) :
    s.next.runOn d = (.ok (none, s.stop), d) := by
  -- A part without a whole header ends the scan for lack of room.
  rcases Nat.lt_or_ge part.length FrameHeader.size with hnone | hheader
  · exact runOn_next_of_end (by omega) d
  · -- The header is whole, but its payload does not fit.
    obtain ⟨rest, hrest⟩ : ∃ rest, part = (f.header salt).encode ++ rest := by
      have hprefix := List.prefix_of_prefix_length_le (List.prefix_append _ f.payload) hpart
        (by rw [FrameHeader.length_encode]; exact hheader)
      exact ⟨_, hprefix.choose_spec.symm⟩
    apply runOn_next_of_refused hread hoffset (hbytes.trans hrest) (FrameHeader.length_encode _)
    intro h hdecode
    rw [FrameHeader.decode_encode] at hdecode
    obtain rfl := Option.some.inj hdecode
    -- The length in the header is that of the whole payload.
    have hlength : (f.header salt).length.toNat = f.payload.length := by
      show (UInt32.ofNat f.payload.length).toNat = f.payload.length
      rw [UInt32.toNat_ofNat']
      exact Nat.mod_eq_of_lt hshort
    have hover : ¬ s.offset + FrameHeader.size + (f.header salt).length.toNat ≤ s.limit := by
      rw [Frame.length_encode] at hcut
      omega
    simp [admits, hover]

/-- A scan to the end of a device gives the whole frames, and stops behind them. -/
theorem runOn_frames_of_part {header : LogHeader} {frames : List Frame} {part : List UInt8}
    (hread : d.faults.read = false) (hseq : IsSequence header.startLsn frames)
    (hbytes : d.bytes = header.contents frames ++ part)
    (hpart : part = [] ∨ ∃ f : Frame, f.payload.length < UInt32.size ∧
      part <+: f.encode header.salt ∧ part.length < (f.encode header.salt).length) :
    ∃ s', (start header d.size).frames.runOn d = (.ok (frames, s'), d) ∧
      s'.validUpTo = (header.contents frames).length := by
  have hsize : d.size = (header.contents frames).length + part.length := by
    rw [Device.size, hbytes, List.length_append]
  rw [hsize]
  -- The scan stands where the part of a frame begins, if there is one.
  refine runOn_frames_stopping hread header.length_encode (hseq.chained (UInt64.le_refl _) rfl)
    hbytes fun s hheader hat hinside hlimit => ?_
  rcases hpart with rfl | ⟨f, hshort, hprefix, hcut⟩
  · exact runOn_next_of_end (by rw [hlimit, List.length_nil, FrameHeader.size]; omega) d
  · have hdrop : d.bytes.drop s.offset = part := by
      rw [hbytes, hat, LogHeader.contents, List.drop_left]
    exact runOn_next_of_part hread hshort hinside hdrop hlimit hprefix hcut

end LogScan

namespace IsSequence

/-- The first frames of a sequence are one. -/
theorem take {start : Lsn} {frames : List Frame} (h : IsSequence start frames) (k : Nat) :
    IsSequence start (frames.take k) := by
  have hbounded := h.bounded
  -- A kept frame has the number that its place gives it, also where others are missing behind.
  refine ⟨fun {i f} hf => ?_, ?_, fun hf => h.short (List.mem_of_mem_take hf)⟩
  · rw [List.getElem?_take] at hf
    split at hf
    · exact h.lsn hf
    · cases hf
  · have hlength := List.length_take_le' k frames
    omega

end IsSequence

/-! ## Frames that are appended afterwards -/

/-- Without a reset a ledger only gains frames. -/
theorem Ledger.acknowledged_prefix_run (b : Ledger) {calls : List (DeviceFaults × LogCall)}
    (hcalls : ∀ c ∈ calls, ∀ startLsn, c.2 ≠ .reset startLsn) :
    b.acknowledged <+: (b.run calls).acknowledged := by
  -- By induction on the calls, of which only an append that succeeds adds a frame.
  induction calls generalizing b with
  | nil => exact List.prefix_refl _
  | cons c rest ih =>
    have hfirst : b.acknowledged <+: (b.call c.1 c.2).acknowledged := by
      obtain ⟨faults, c⟩ := c
      cases c with
      | append txn payload =>
        simp only [call]
        split
        · exact List.prefix_append _ _
        · exact List.prefix_refl _
      | flush => exact List.prefix_refl _
      | reset startLsn => exact absurd rfl (hcalls (faults, .reset startLsn) List.mem_cons_self _)
    have hrest := ih (b.call c.1 c.2) fun c' hc' => hcalls c' (List.mem_cons_of_mem c hc')
    exact hfirst.trans hrest

/-- A log on whose device bytes can always be cut off is never poisoned. -/
theorem Ledger.IsKept.unpoisoned_run {b : Ledger} {salt : UInt64} (h : b.IsKept salt)
    (hpoisoned : b.log.poisoned = false) {calls : List (DeviceFaults × LogCall)}
    (hcalls : b.PermitsAll calls) (htruncates : ∀ c ∈ calls, c.1.truncate = false) :
    (b.run calls).log.poisoned = false := by
  -- By induction on the calls: only a frame that could not be cut off poisons the log.
  induction calls generalizing b with
  | nil => exact hpoisoned
  | cons c rest ih =>
    obtain ⟨faults, c⟩ := c
    have htruncate : faults.truncate = false := htruncates (faults, c) List.mem_cons_self
    refine ih (h.call faults hcalls.1) ?_ hcalls.2 fun c' hc' =>
      htruncates c' (List.mem_cons_of_mem _ hc')
    cases c with
    | append txn payload =>
      rcases h.append_cases faults txn payload with
        ⟨err, hrun⟩ | ⟨-, err, data, hrun⟩ | ⟨-, -, hrun⟩
      · simp only [Ledger.call, hrun]
        exact hpoisoned
      · -- What was stored of the frame could be cut off.
        have hcut : (b.log.withFaults faults).device.faults.truncate = false := htruncate
        simp only [Ledger.call, hrun, RedoLog.discarded, hcut]
        exact hpoisoned
      · simp only [Ledger.call, hrun]
        exact hpoisoned
    | flush =>
      simp only [Ledger.call, RedoLog.runOn_flush]
      split <;> exact hpoisoned
    -- The reset goes through, as the calls that are permitted say.
    | reset startLsn =>
      obtain ⟨log, hrun⟩ : ∃ log, (RedoLog.reset startLsn).runOn (b.log.withFaults faults) =
        (.ok (), log) := ⟨_, Prod.ext hcalls.1 rfl⟩
      simp only [Ledger.call, hrun]
      rw [RedoLog.eq_of_runOn_reset hrun]
      rfl

/-! ## The main statement -/

namespace RedoLog

variable {options : LogOptions} {d : Device} {header : LogHeader} {frames : List Frame}

/-- A log whose file ends within a frame is opened with the frames before it, and without the
part. -/
theorem openOn_of_part {part : List UInt8} (hseq : IsSequence header.startLsn frames)
    (hsalt : options.salt = header.salt) (hread : d.faults.read = false)
    (hlength : d.faults.length = false) (htruncate : d.faults.truncate = false)
    (hbytes : d.bytes = header.contents frames ++ part)
    (hpart : part = [] ∨ ∃ f : Frame, f.payload.length < UInt32.size ∧
      part <+: f.encode header.salt ∧ part.length < (f.encode header.salt).length) :
    let log := openedAt options header frames (header.contents frames).length d
    openOn options d = (.ok log, log.device) ∧ log.device.bytes = header.contents frames ∧
      log.Holds frames := by
  intro log
  -- The header is whole, and the frames are scanned up to the part behind them.
  have hload : (loadHeader options).runOn d = (.ok header, d) :=
    runOn_loadHeader hread hlength header.length_encode header.decode_encode hsalt.symm
      (hbytes.trans (List.append_assoc ..))
  obtain ⟨s, hframes, hvalid⟩ := LogScan.runOn_frames_of_part hread hseq hbytes hpart
  have hinside : s.validUpTo ≤ d.size := by
    rw [hvalid, Device.size, hbytes, List.length_append]
    exact Nat.le_add_right _ _
  have hopen := openOn_of_scan hlength htruncate hload hframes hinside
  rw [hvalid] at hopen
  -- The part is cut off.
  have hdevice : log.device.bytes = header.contents frames := by
    show d.bytes.take (header.contents frames).length = _
    rw [hbytes, List.take_left]
  exact ⟨hopen, hdevice, hseq, toNat_lsnAfter hseq, rfl, hdevice ▸ List.prefix_refl _,
    fun _ => hdevice⟩

/-- Take the file of a log with any frames, and cut it to any length that leaves the header whole.
It is opened, and of the frames exactly those are kept that lie wholly before the cut. The file ends
behind them, the bytes that were cut off are counted, and the next number follows that of the last
frame, or is the first one if no frame is kept. Whatever is asked of the log from then on, and
whatever fails meanwhile, it is as reliable as any log, with the frames that were kept in front of
those that are acknowledged; and it is never poisoned if bytes can be cut off its device. -/
theorem openOn_cut (hseq : IsSequence header.startLsn frames) {length : Nat}
    (hlong : LogHeader.size ≤ length) (hsalt : options.salt = header.salt)
    (hread : d.faults.read = false) (hlength : d.faults.length = false)
    (htruncate : d.faults.truncate = false)
    (hbytes : d.bytes = (header.contents frames).take length) :
    ∃ k log, openOn options d = (.ok log, log.device) ∧ k ≤ frames.length ∧
      (∀ i < frames.length,
        i < k ↔ (header.contents (frames.take (i + 1))).length ≤ length) ∧
      log.device.bytes = header.contents (frames.take k) ∧
      log.stats.truncatedBytes = d.size - log.device.size ∧
      log.nextLsn = ((frames.take k).getLast?.map fun f => f.lsn.next).getD header.startLsn ∧
      ∀ calls, (Ledger.mk log header.startLsn (frames.take k)).PermitsAll calls →
        let b := (Ledger.mk log header.startLsn (frames.take k)).run calls
        b.Reliable header.salt ∧
          ((∀ c ∈ calls, c.1.truncate = false) → b.log.poisoned = false) ∧
          ((∀ c ∈ calls, ∀ startLsn, c.2 ≠ .reset startLsn) →
            frames.take k <+: b.acknowledged) := by
  obtain ⟨k, part, hk, htake, hwhole, hpart⟩ :=
    Frame.take_encodeAll header.salt frames (length - LogHeader.size)
  have hkept : IsSequence header.startLsn (frames.take k) := hseq.take k
  -- What is left of the file are the header, whole frames and a part of another one.
  have hsplit : d.bytes = header.contents (frames.take k) ++ part := by
    rw [hbytes, LogHeader.contents, List.take_append, header.length_encode,
      List.take_of_length_le (by rw [header.length_encode]; exact hlong), htake,
      LogHeader.contents, List.append_assoc]
  have hshort : part = [] ∨ ∃ f : Frame, f.payload.length < UInt32.size ∧
      part <+: f.encode header.salt ∧ part.length < (f.encode header.salt).length := by
    rcases hpart with hnone | ⟨f, hf, hpart⟩
    · exact .inl hnone
    · exact .inr ⟨f, hseq.short hf, hpart⟩
  obtain ⟨hopen, hdevice, hholds⟩ :=
    openOn_of_part hkept hsalt hread hlength htruncate hsplit hshort
  -- The kept frames make a ledger of their own, of which everything later is known.
  have hledger : (Ledger.mk (openedAt options header (frames.take k)
      (header.contents (frames.take k)).length d) header.startLsn (frames.take k)).IsKept
      header.salt := ⟨rfl, hholds⟩
  refine ⟨k, _, hopen, hk, fun i hi => ?_, hdevice, ?_, ?_, fun calls hcalls => ⟨?_, ?_, ?_⟩⟩
  · rw [hwhole i hi, LogHeader.contents, List.length_append, header.length_encode]
    omega
  · exact congrArg (d.size - ·) (congrArg List.length hdevice).symm
  · show lsnAfter header (frames.take k) = _
    rw [lsnAfter]
    cases (frames.take k).getLast? <;> rfl
  · exact (hledger.run hcalls).reliable
  · exact hledger.unpoisoned_run rfl hcalls
  · exact Ledger.acknowledged_prefix_run ⟨_, header.startLsn, frames.take k⟩

/-- The file ends within the header of the second frame. The first frame is kept, and the next one
appended is given the number of the lost one. -/
theorem openOn_cut_of_half_a_header :
    let header : LogHeader := ⟨7, ⟨4⟩⟩
    let frames : List Frame := [⟨⟨4⟩, ⟨1⟩, [1, 2]⟩, ⟨⟨5⟩, ⟨2⟩, [3]⟩]
    let options := LogOptions.basic 7 .never
    let d := Device.ofBytes ((header.contents frames).take 80)
    let calls : List (DeviceFaults × LogCall) := [(.none, .append ⟨3⟩ [4])]
    IsSequence header.startLsn frames ∧ LogHeader.size ≤ 80 ∧
      ∃ log, openOn options d = (.ok log, log.device) ∧
        log.device.bytes = header.contents (frames.take 1) ∧
        log.stats.truncatedBytes = 14 ∧ log.nextLsn = ⟨5⟩ ∧
        let b : Ledger := ⟨log, header.startLsn, frames.take 1⟩
        b.PermitsAll calls ∧ (b.run calls).Reliable header.salt ∧
          (b.run calls).acknowledged = [⟨⟨4⟩, ⟨1⟩, [1, 2]⟩, ⟨⟨5⟩, ⟨3⟩, [4]⟩] := by
  intro header frames options d calls
  have hseq : IsSequence header.startLsn frames := by
    refine ⟨fun {i f} hf => ?_, by decide, fun {f} hf => ?_⟩
    · match i with
      | 0 | 1 =>
        cases hf
        rfl
      | i + 2 => cases hf
    · simp only [frames, List.mem_cons, List.not_mem_nil, or_false] at hf
      rcases hf with rfl | rfl <;> decide
  have hlong : LogHeader.size ≤ 80 := by decide
  have hsalt : options.salt = header.salt := rfl
  obtain ⟨k, log, hopen, -, hwhole, hbytes, htruncated, hnext, hledger⟩ :=
    openOn_cut hseq hlong hsalt rfl rfl rfl (rfl : d.bytes = _)
  -- The first frame ends before the cut, and the second one does not.
  obtain rfl : k = 1 := by
    have hfirst : 0 < k := (hwhole 0 (by decide)).mpr (by decide +kernel)
    have hsecond : ¬ 1 < k := (not_congr (hwhole 1 (by decide))).mpr (by decide +kernel)
    omega
  -- The log is known once the cut is known to leave 14 bytes of the second frame.
  let second : Frame := ⟨⟨5⟩, ⟨2⟩, [3]⟩
  let part := (second.encode header.salt).take 14
  have hpart : part = [] ∨ ∃ f : Frame, f.payload.length < UInt32.size ∧
      part <+: f.encode header.salt ∧ part.length < (f.encode header.salt).length :=
    .inr ⟨second, by decide, List.take_prefix _ _, by decide +kernel⟩
  have hsplit : d.bytes = header.contents (frames.take 1) ++ part := by decide +kernel
  have hrun := (openOn_of_part (hseq.take 1) hsalt rfl rfl rfl hsplit hpart).1
  obtain rfl := Except.ok.inj (congrArg Prod.fst (hopen.symm.trans hrun))
  have hcalls : (Ledger.mk (openedAt options header (frames.take 1)
      (header.contents (frames.take 1)).length d) header.startLsn
      (frames.take 1)).PermitsAll calls := by
    refine ⟨fun lsn h => ?_, trivial⟩
    cases h
    decide
  exact ⟨hseq, hlong, _, hopen, hbytes, by decide +kernel, hnext, hcalls,
    (hledger calls hcalls).1, rfl⟩

end RedoLog

end TxnStore
