import TxnStore.Proofs.Log.Ledger

/-!
# Frames that are refused

A frame that could not be appended is cut off again, or it lies behind the end of the log, where no
scan goes. So whoever reads the log finds the same frames as before, whatever failed.
-/

namespace TxnStore

open TxnStore.Action

/-! ## Bytes behind the end -/

namespace Device

/-- The device with more bytes at its end. -/
def extended (d : Device) (more : List UInt8) : Device := { d with bytes := d.bytes ++ more }

/-- Bytes that a device has are read alike if there are more behind them. -/
theorem runOn_read_extended {d : Device} {offset n : Nat} (h : offset + n ≤ d.size)
    (more : List UInt8) :
    ∃ a, (read offset n).runOn d = (a, d) ∧
      (read offset n).runOn (d.extended more) = (a, d.extended more) := by
  have hmore : offset + n ≤ (d.extended more).size := by
    show offset + n ≤ (d.bytes ++ more).length
    rw [List.length_append]
    exact Nat.le_add_right_of_le h
  -- A device that cannot be read gives the same error, and otherwise the same bytes.
  cases hread : d.faults.read with
  | true =>
    have hfault : ∀ d' : Device, d'.faults.read = true →
        (read offset n).runOn d' = (.error (.device .readFailed), d') := by
      intro d' hd'
      rw [read, runOn_bind, runOn_get]
      simp [readFault, hd']
    exact ⟨_, hfault d hread, hfault (d.extended more) hread⟩
  | false =>
    have hread' : (d.extended more).faults.read = false := hread
    refine ⟨_, runOn_read hread h, ?_⟩
    have hbytes : ((d.extended more).bytes.drop offset).take n = (d.bytes.drop offset).take n := by
      have hsize : d.size = d.bytes.length := rfl
      show ((d.bytes ++ more).drop offset).take n = _
      rw [List.drop_append_of_le_length (by omega), List.take_append_of_le_length]
      rw [List.length_drop]
      omega
    rw [runOn_read hread' hmore, hbytes]

theorem eq_of_runOn_read {d d' : Device} {offset n : Nat} {bs : List UInt8}
    (h : (read offset n).runOn d = (.ok bs, d')) : d' = d := by
  rw [read, runOn_bind, runOn_get] at h
  simp only at h
  split at h
  · cases h
  · cases h
    rfl

theorem eq_of_runOn_length {d d' : Device} {n : Nat} (h : length.runOn d = (.ok n, d')) :
    n = d.size ∧ d' = d := by
  rw [runOn_length] at h
  split at h
  · cases h
  · cases h
    exact ⟨rfl, rfl⟩

end Device

namespace LogScan

variable {d : Device} {s : LogScan}

/-- A scan does not look behind its limit. -/
theorem runOn_next_extended (hlimit : s.limit ≤ d.size) (more : List UInt8) :
    ∃ a, s.next.runOn d = (a, d) ∧ s.next.runOn (d.extended more) = (a, d.extended more) ∧
      ∀ frame s', a = .ok (frame, s') → s'.limit = s.limit := by
  -- Every answer without a frame leaves the limit.
  have hstop : ∀ frame s', (.ok (none, s.stop) : Except StoreError (Option Frame × LogScan)) =
      .ok (frame, s') → s'.limit = s.limit := by
    intro frame s' h
    cases h
    rfl
  -- The scan reads a header and then a payload, both of which end before its limit.
  by_cases hroom : s.limit < s.offset + FrameHeader.size
  · exact ⟨_, runOn_next_of_end hroom d, runOn_next_of_end hroom _, hstop⟩
  obtain ⟨a, hheader, hheader'⟩ :=
    Device.runOn_read_extended (Nat.le_trans (Nat.le_of_not_lt hroom) hlimit) more
  simp only [next, if_neg hroom, runOn_bind, hheader, hheader']
  cases a with
  | error err => exact ⟨_, rfl, rfl, fun _ _ h => by cases h⟩
  | ok bs =>
    simp only
    cases FrameHeader.decode bs with
    | none => exact ⟨_, rfl, rfl, hstop⟩
    | some h =>
      simp only
      by_cases hadmits : s.admits h = true
      · -- A frame is admitted only if its payload ends before the limit.
        have hfits : s.offset + FrameHeader.size + h.length.toNat ≤ s.limit := by
          simp only [admits, Bool.and_eq_true, decide_eq_true_eq] at hadmits
          exact hadmits.2
        obtain ⟨b, hpayload, hpayload'⟩ :=
          Device.runOn_read_extended (Nat.le_trans hfits hlimit) more
        simp only [if_pos hadmits, runOn_bind, hpayload, hpayload']
        cases b with
        | error err => exact ⟨_, rfl, rfl, fun _ _ h => by cases h⟩
        | ok payload =>
          simp only
          split
          · refine ⟨_, rfl, rfl, ?_⟩
            intro frame s' h
            cases h
            rfl
          · exact ⟨_, rfl, rfl, hstop⟩
      · simp only [if_neg hadmits]
        exact ⟨_, rfl, rfl, hstop⟩

theorem runOn_collect_extended (hlimit : s.limit ≤ d.size) (more : List UInt8) (bound : Nat) :
    ∃ a, (collect bound s).runOn d = (a, d) ∧
      (collect bound s).runOn (d.extended more) = (a, d.extended more) := by
  -- By induction on the bound, as the limit of the scan stays within the device.
  induction bound generalizing s with
  | zero => exact ⟨_, rfl, rfl⟩
  | succ bound ih =>
    obtain ⟨a, hnext, hnext', hsame⟩ := runOn_next_extended hlimit more
    simp only [collect, runOn_bind, hnext, hnext']
    rcases a with err | ⟨frame, s'⟩
    · exact ⟨_, rfl, rfl⟩
    · cases frame with
      | none => exact ⟨_, rfl, rfl⟩
      | some f =>
        have hlimit' : s'.limit ≤ d.size := by
          rw [hsame (some f) s' rfl]
          exact hlimit
        obtain ⟨b, hrest, hrest'⟩ := ih hlimit'
        simp only [runOn_bind, hrest, hrest']
        rcases b with err | ⟨frames, s''⟩
        · exact ⟨_, rfl, rfl⟩
        · exact ⟨_, rfl, rfl⟩

/-- A scan ends with the last good frame before its limit. -/
theorem validUpTo_of_runOn_collect (hlimit : s.limit ≤ d.size) (hvalid : s.validUpTo ≤ s.offset)
    (hoffset : s.offset ≤ s.limit) {bound : Nat} {frames : List Frame} {s' : LogScan} {d' : Device}
    (h : (collect bound s).runOn d = (.ok (frames, s'), d')) :
    d' = d ∧ s'.validUpTo ≤ s.limit := by
  -- A scan does not depend on what lies behind its limit, and it changes nothing.
  obtain ⟨a, hcollect, -⟩ := runOn_collect_extended hlimit [] bound
  refine ⟨(congrArg Prod.snd (h.symm.trans hcollect)), ?_⟩
  cases hread : d.faults.read with
  | false =>
    obtain ⟨frames', s₁, htotal, -, hend⟩ := collect_total hread hlimit hvalid hoffset bound
    rw [h] at htotal
    cases htotal
    exact hend
  | true =>
    -- A scan that cannot read gives something only if it has nothing to read.
    cases bound with
    | zero =>
      cases h
      exact Nat.le_trans hvalid hoffset
    | succ bound =>
      rw [collect] at h
      obtain ⟨⟨frame, s₁⟩, d₁, hnext, h⟩ := exists_of_runOn_bind h
      by_cases hroom : s.limit < s.offset + FrameHeader.size
      · rw [runOn_next_of_end hroom d] at hnext
        cases hnext
        cases h
        exact Nat.le_trans hvalid hoffset
      · -- There is room for a header, which cannot be read.
        rw [next, if_neg hroom, runOn_bind, Device.read, runOn_bind, runOn_get] at hnext
        simp [Device.readFault, hread] at hnext

end LogScan

/-! ## Logs -/

namespace RedoLog

variable {log log' : RedoLog}

/-- The frames of a log lie on its device, and nothing lies behind them unless the log is
poisoned. -/
structure IsTrimmed (log : RedoLog) : Prop where
  inside : log.appendOffset ≤ log.device.size
  trimmed : log.poisoned = false → log.appendOffset = log.device.size

/-- A log gives the same frames if there are more bytes on its device. -/
theorem frames_eq_of_extended (hinside : log.appendOffset ≤ log.device.size)
    (hheader : log'.header = log.header) (hoffset : log'.appendOffset = log.appendOffset)
    {more : List UInt8} (hdevice : log'.device = log.device.extended more) :
    (frames.runOn log').1 = (frames.runOn log).1 := by
  have hscan : log'.scan = log.scan := by rw [scan, scan, hheader, hoffset]
  obtain ⟨a, hframes, hframes'⟩ := LogScan.runOn_collect_extended (s := log.scan) hinside more
    (log.scan.limit - log.scan.offset + 1)
  simp only [frames, runOn_bind, runOn_get, runOn_onDevice, hscan, hdevice, LogScan.frames,
    hframes, hframes']
  cases a <;> rfl

namespace IsTrimmed

theorem withFaults (h : log.IsTrimmed) (faults : DeviceFaults) :
    (log.withFaults faults).IsTrimmed := ⟨h.inside, h.trimmed⟩

/-- An append keeps the end of the log where its device ends, or poisons the log. -/
theorem append (h : log.IsTrimmed) (txn : TxnId) (payload : List UInt8) :
    ((RedoLog.append txn payload).runOn log).2.IsTrimmed := by
  -- The append is refused, discarded or acknowledged.
  rcases append_cases log txn payload h.trimmed with
    ⟨err, hrun⟩ | ⟨hpoisoned, err, data, hrun⟩ | ⟨hpoisoned, -, hrun⟩
  · rw [hrun]
    exact h
  · -- What could not be cut off lies behind the end, and the log is poisoned then.
    rw [hrun]
    unfold discarded
    split
    · refine ⟨?_, fun hsound => by cases hsound⟩
      show log.appendOffset ≤ (log.device.bytes ++ data).length
      rw [List.length_append]
      exact Nat.le_add_right_of_le h.inside
    · exact h
  · -- The frame comes right behind the end, which moves along.
    have hsize : ∀ bs : List UInt8,
        ((log.extended bs).appended bs.length).appendOffset =
          ((log.extended bs).appended bs.length).device.size := by
      intro bs
      show log.appendOffset + bs.length = (log.device.bytes ++ bs).length
      rw [List.length_append, h.trimmed hpoisoned]
      rfl
    rw [hrun]
    exact ⟨Nat.le_of_eq (hsize _), fun _ => hsize _⟩

/-- An append that is refused leaves the frames that the log gives. -/
theorem frames_of_refused (h : log.IsTrimmed) {txn : TxnId} {payload : List UInt8}
    {err : StoreError} (hrun : (RedoLog.append txn payload).runOn log = (.error err, log'))
    (faults : DeviceFaults) :
    (frames.runOn (log'.withFaults faults)).1 = (frames.runOn (log.withFaults faults)).1 := by
  rcases append_cases log txn payload h.trimmed with
    ⟨err', hsame⟩ | ⟨-, err', data, hdiscarded⟩ | ⟨-, -, hdone⟩
  · rw [hrun] at hsame
    cases hsame
    rfl
  · rw [hrun] at hdiscarded
    cases hdiscarded
    unfold discarded
    -- Either the log is poisoned, and the bytes stay behind its end, or they are cut off.
    split
    · exact frames_eq_of_extended h.inside rfl rfl rfl
    · rfl
  · rw [hrun] at hdone
    cases hdone

end IsTrimmed

/-! ### Opening -/

/-- A device on which a header was found or written has room for it. -/
theorem size_of_runOn_loadHeader {options : LogOptions} {d d' : Device} {header : LogHeader}
    (h : (loadHeader options).runOn d = (.ok header, d')) : LogHeader.size ≤ d'.size := by
  obtain ⟨size, d₁, hlength, h⟩ := exists_of_runOn_bind h
  obtain ⟨rfl, rfl⟩ := Device.eq_of_runOn_length hlength
  -- A device too short for a header is given a new one.
  split at h
  · obtain ⟨-, rfl⟩ := eq_of_runOn_format h
    exact Nat.le_of_eq header.length_encode.symm
  · next hlong =>
    -- Reading a header leaves the device alone.
    obtain ⟨bs, d₂, hread, h⟩ := exists_of_runOn_bind h
    obtain ⟨found, d₃, hdecode, h⟩ := exists_of_runOn_bind h
    obtain rfl := Device.eq_of_runOn_read hread
    obtain rfl : d₂ = d₃ := congrArg Prod.snd hdecode
    split at h
    · cases h
      exact Nat.le_of_not_lt hlong
    · cases h

/-- A device ends where its tail was cut off, if it reached so far. -/
theorem size_of_runOn_cutTail {d d' : Device} {n k : Nat} (hinside : n ≤ d.size)
    (h : (cutTail n).runOn d = (.ok k, d')) : d'.size = n := by
  obtain ⟨size, d₁, hlength, h⟩ := exists_of_runOn_bind h
  obtain ⟨rfl, rfl⟩ := Device.eq_of_runOn_length hlength
  -- Either the tail is cut off, or there is none.
  split at h
  · obtain ⟨_, d₂, htruncate, h⟩ := exists_of_runOn_bind h
    cases h
    rw [Device.eq_of_runOn_truncate htruncate]
    show (Device.resize d₁.bytes n).length = n
    have hsize : d₁.size = d₁.bytes.length := rfl
    rw [Device.resize, List.length_append, List.length_take, List.length_replicate]
    omega
  · next hend =>
    cases h
    exact Nat.le_antisymm (Nat.le_of_not_lt hend) hinside

/-- A log that was opened ends where its device ends. -/
theorem isTrimmed_of_openOn {options : LogOptions} {d d' : Device}
    (h : openOn options d = (.ok log, d')) : log.IsTrimmed := by
  rw [openOn] at h
  -- An opened log ends where its device was cut.
  split at h
  · next make d₁ hopen =>
    cases h
    obtain ⟨header, d₂, hload, hopen⟩ := exists_of_runOn_bind hopen
    obtain ⟨size, d₃, hlength, hopen⟩ := exists_of_runOn_bind hopen
    obtain ⟨rfl, rfl⟩ := Device.eq_of_runOn_length hlength
    obtain ⟨⟨frames, s⟩, d₄, hframes, hopen⟩ := exists_of_runOn_bind hopen
    obtain ⟨truncated, d₅, hcut, hopen⟩ := exists_of_runOn_bind hopen
    cases hopen
    -- The scan goes from the end of the header to that of the device.
    obtain ⟨rfl, hvalid⟩ := LogScan.validUpTo_of_runOn_collect (Nat.le_refl _) (Nat.le_refl _)
      (size_of_runOn_loadHeader hload) hframes
    have hend := size_of_runOn_cutTail hvalid hcut
    exact ⟨Nat.le_of_eq hend.symm, fun _ => hend.symm⟩
  · cases h

end RedoLog

end TxnStore
