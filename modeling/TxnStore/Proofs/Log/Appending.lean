import TxnStore.Log
import TxnStore.Proofs.Log.Contents

/-!
# Appending to a log

What a log holds is told by the bytes of its device: they begin with its contents, and nothing else
is there unless the log is poisoned. Appending keeps this whatever fails on the way, since a frame
that is not acknowledged is cut off again, or the log is poisoned.
-/

namespace TxnStore

open TxnStore.Action

/-! ## Storing -/

namespace Device

variable {bs data : List UInt8}

theorem resize_append (bs data : List UInt8) : resize (bs ++ data) bs.length = bs := by
  simp [resize]

theorem resize_length (bs : List UInt8) : resize bs bs.length = bs := by
  simp [resize]

/-- Bytes stored at the end are put behind the others. -/
theorem store_size (d : Device) (data : List UInt8) :
    d.store d.size data = { d with bytes := d.bytes ++ data } := by
  have hoverlay : overlay d.bytes d.size data = d.bytes ++ data := by
    simp [overlay, size, resize_length, List.drop_eq_nil_of_le]
  unfold store
  split
  · simp
  · rw [hoverlay]

/-- Bytes stored at the start are put over the others. -/
theorem store_zero (d : Device) {data : List UInt8} (h : data ≠ []) :
    d.store 0 data = { d with bytes := data ++ d.bytes.drop data.length } := by
  have hoverlay : overlay d.bytes 0 data = data ++ d.bytes.drop data.length := by
    simp [overlay, resize]
  unfold store
  split
  · exact absurd rfl h
  · rw [hoverlay]

/-- A write that succeeds stores all of its data. -/
theorem eq_of_runOn_write {offset : Nat} {data : List UInt8} {d d' : Device}
    (h : (write offset data).runOn d = (.ok (), d')) : d' = d.store offset data := by
  rw [write, runOn_bind, runOn_get] at h
  cases hf : d.faults.write with
  | false =>
    simp only [hf, Bool.false_eq_true, if_false] at h
    exact (congrArg Prod.snd h).symm
  -- A write that is set to fail does not succeed, however much of it is stored.
  | true => cases ht : d.faults.torn <;> simp [hf, ht, runOn_bind] at h

theorem runOn_length (d : Device) :
    length.runOn d =
      if d.faults.length then (.error (.device .lengthFailed), d) else (.ok d.size, d) := by
  rw [length, runOn_bind, runOn_get]
  cases hf : d.faults.length <;> simp only [hf, if_true, Bool.false_eq_true, if_false] <;> rfl

theorem runOn_truncate (n : Nat) (d : Device) :
    (truncate n).runOn d =
      if d.faults.truncate then (.error (.device .truncateFailed), d)
      else (.ok (), { d with bytes := resize d.bytes n }) := by
  rw [truncate, runOn_bind, runOn_get]
  cases hf : d.faults.truncate <;> simp only [hf, if_true, Bool.false_eq_true, if_false] <;> rfl

theorem eq_of_runOn_truncate {n : Nat} {d d' : Device}
    (h : (truncate n).runOn d = (.ok (), d')) : d' = { d with bytes := resize d.bytes n } := by
  rw [runOn_truncate] at h
  split at h
  · cases h
  · exact (congrArg Prod.snd h).symm

theorem runOn_sync (d : Device) :
    sync.runOn d = if d.faults.sync then (.error (.device .syncFailed), d) else (.ok (), d) := by
  rw [sync, runOn_bind, runOn_get]
  cases hf : d.faults.sync <;> simp only [hf, if_true, Bool.false_eq_true, if_false] <;> rfl

theorem eq_of_runOn_sync {d d' : Device} (h : sync.runOn d = (.ok (), d')) : d' = d := by
  rw [runOn_sync] at h
  split at h
  · cases h
  · exact (congrArg Prod.snd h).symm

/-- What a write at the end stores: all of its data, or some leading bytes if it is set to fail. -/
theorem runOn_write_size (d : Device) (data : List UInt8) :
    (write d.size data).runOn d =
      if d.faults.write then
        (.error (.device .writeFailed),
          { d with bytes := d.bytes ++ data.take (d.faults.torn.getD 0) })
      else (.ok (), { d with bytes := d.bytes ++ data }) := by
  rw [write, runOn_bind, runOn_get]
  cases hf : d.faults.write with
  | false => simp [hf, store_size]
  | true =>
    cases ht : d.faults.torn with
    | none => simp [hf, ht]
    | some n => simp [hf, ht, runOn_bind, store_size]

end Device

namespace RedoLog

/-- The bytes that `persist` puts at the end, and whether it succeeds in doing so. -/
theorem runOn_persist (sync : LogSync) (d : Device) (bs : List UInt8) :
    (persist sync d.size bs).runOn d =
      if d.faults.write then
        (.error (.device .writeFailed),
          { d with bytes := d.bytes ++ bs.take (d.faults.torn.getD 0) })
      else if sync = .always ∧ d.faults.sync = true then
        (.error (.device .syncFailed), { d with bytes := d.bytes ++ bs })
      else (.ok (), { d with bytes := d.bytes ++ bs }) := by
  rw [persist, runOn_bind, Device.runOn_write_size]
  cases hw : d.faults.write with
  | true => simp
  | false =>
    cases hs : sync <;> cases hf : d.faults.sync <;> simp [Device.runOn_sync, hf]

@[simp] theorem runOn_onDevice {α : Type} (a : Action Device α) (log : RedoLog) :
    (onDevice a).runOn log =
      ((a.runOn log.device).1, { log with device := (a.runOn log.device).2 }) := rfl

theorem exists_of_runOn_onDevice {α : Type} {a : Action Device α} {log log' : RedoLog} {x : α}
    (h : (onDevice a).runOn log = (.ok x, log')) :
    ∃ d, a.runOn log.device = (.ok x, d) ∧ log' = { log with device := d } := by
  rw [runOn_onDevice] at h
  have hx : (a.runOn log.device).1 = .ok x := congrArg Prod.fst h
  exact ⟨(a.runOn log.device).2, Prod.ext hx rfl, (congrArg Prod.snd h).symm⟩

/-- A log gives the frames that its scan finds. -/
theorem runOn_frames_of_scan {log : RedoLog} {frames : List Frame} {s : LogScan}
    (h : log.scan.frames.runOn log.device = (.ok (frames, s), log.device)) :
    RedoLog.frames.runOn log = (.ok (frames, s.validUpTo), log) := by
  rw [RedoLog.frames, runOn_bind, runOn_get]
  simp only [runOn_bind, runOn_onDevice, h]
  rfl

/-! ## What an append does -/

/-- The log with more bytes at the end of its device. -/
def extended (log : RedoLog) (data : List UInt8) : RedoLog :=
  { log with device := { log.device with bytes := log.device.bytes ++ data } }

/-- The log once bytes at the end of its device were to be cut off again: it is as before, or it is
poisoned if that fails. -/
def discarded (log : RedoLog) (data : List UInt8) : RedoLog :=
  if log.device.faults.truncate then { log.extended data with poisoned := true } else log

/-- The frame that an append would add. -/
def frameToAppend (log : RedoLog) (txn : TxnId) (payload : List UInt8) : Frame :=
  ⟨log.nextLsn, txn, payload⟩

@[simp] theorem header_discarded (log : RedoLog) (data : List UInt8) :
    (log.discarded data).header = log.header := by
  unfold discarded
  split <;> rfl

@[simp] theorem nextLsn_discarded (log : RedoLog) (data : List UInt8) :
    (log.discarded data).nextLsn = log.nextLsn := by
  unfold discarded
  split <;> rfl

@[simp] theorem appendOffset_discarded (log : RedoLog) (data : List UInt8) :
    (log.discarded data).appendOffset = log.appendOffset := by
  unfold discarded
  split <;> rfl

theorem runOn_discardFrom (log : RedoLog) (data : List UInt8) :
    (discardFrom log.device.size).runOn (log.extended data) = (.ok (), log.discarded data) := by
  rw [discardFrom, runOn_bind, runOn_attempt]
  simp only [runOn_onDevice, Device.runOn_truncate]
  unfold discarded
  cases hf : log.device.faults.truncate with
  | true => simp [extended, hf]
  | false => simp [extended, hf, Device.size, Device.resize_append]

variable {log : RedoLog} {payload : List UInt8}

theorem runOn_append_of_long (txn : TxnId) (h : UInt32.size ≤ payload.length) :
    (append txn payload).runOn log = (.error (.invalid .frameTooLong), log) := by
  rw [append, if_pos h]
  rfl

theorem runOn_append_of_poisoned (txn : TxnId) (hshort : payload.length < UInt32.size)
    (hpoisoned : log.poisoned = true) :
    (append txn payload).runOn log = (.error .logPoisoned, log) := by
  rw [append, if_neg (Nat.not_le.mpr hshort), runOn_bind, runOn_get]
  simp only [hpoisoned, if_true]
  rfl

/-- A log that is not poisoned stores the next frame at its end. Where that fails, the frame is
discarded. -/
theorem runOn_append (txn : TxnId) (hshort : payload.length < UInt32.size)
    (hpoisoned : log.poisoned = false) (hend : log.appendOffset = log.device.size) :
    let bs := (log.frameToAppend txn payload).encode log.header.salt
    (append txn payload).runOn log =
      if log.device.faults.write then
        (.error (.device .writeFailed),
          log.discarded (bs.take (log.device.faults.torn.getD 0)))
      else if log.sync = .always ∧ log.device.faults.sync = true then
        (.error (.device .syncFailed), log.discarded bs)
      else (.ok log.nextLsn, (log.extended bs).appended bs.length) := by
  intro bs
  have hpersist := runOn_persist log.sync log.device bs
  rw [← hend] at hpersist
  -- Both failures end alike: what was stored is discarded, and the error is passed on.
  have hrefused : ∀ (err : StoreError) (data : List UInt8),
      (do discardFrom log.appendOffset; throw err : Action RedoLog Lsn).runOn (log.extended data) =
        (.error err, log.discarded data) := by
    intro err data
    rw [runOn_bind, hend, runOn_discardFrom]
    rfl
  have hgoes : ¬ log.poisoned = true := by simp [hpoisoned]
  have hbs : (Frame.mk log.nextLsn txn payload).encode log.header.salt = bs := rfl
  rw [append, if_neg (Nat.not_le.mpr hshort), runOn_bind, runOn_get]
  simp only [if_neg hgoes, runOn_bind, runOn_attempt, runOn_onDevice]
  rw [hbs]
  -- What follows depends on how far the bytes of the frame got.
  by_cases hw : log.device.faults.write = true
  · rw [if_pos hw] at hpersist ⊢
    rw [hpersist]
    exact hrefused _ _
  · rw [if_neg hw] at hpersist ⊢
    by_cases hs : log.sync = .always ∧ log.device.faults.sync = true
    · rw [if_pos hs] at hpersist ⊢
      rw [hpersist]
      exact hrefused _ _
    · rw [if_neg hs] at hpersist ⊢
      rw [hpersist]
      rfl

/-- All that an append can do: nothing, discard a frame, or store one. -/
theorem append_cases (log : RedoLog) (txn : TxnId) (payload : List UInt8)
    (hend : log.poisoned = false → log.appendOffset = log.device.size) :
    (∃ err, (append txn payload).runOn log = (.error err, log)) ∨
      (log.poisoned = false ∧
        ∃ err data, (append txn payload).runOn log = (.error err, log.discarded data)) ∨
      (log.poisoned = false ∧ payload.length < UInt32.size ∧
        let bs := (log.frameToAppend txn payload).encode log.header.salt
        (append txn payload).runOn log =
          (.ok log.nextLsn, (log.extended bs).appended bs.length)) := by
  -- A payload that is too long is refused, and so is any payload on a poisoned log.
  rcases Nat.lt_or_ge payload.length UInt32.size with hshort | hlong
  · cases hpoisoned : log.poisoned with
    | true => exact .inl ⟨_, runOn_append_of_poisoned txn hshort hpoisoned⟩
    | false =>
      rw [runOn_append txn hshort hpoisoned (hend hpoisoned)]
      split
      · -- The write may fail, the sync behind it may fail, or both go through.
        exact .inr (.inl ⟨rfl, _, _, rfl⟩)
      · split
        · exact .inr (.inl ⟨rfl, _, _, rfl⟩)
        · exact .inr (.inr ⟨rfl, hshort, rfl⟩)
  · exact .inl ⟨_, runOn_append_of_long txn hlong⟩

/-! ## What a log holds -/

/-- A log holds frames behind a head: their numbers begin at one that is no earlier than the number
in its header and lead up to the next one, and they are what its device has behind the head up to
the end of the last one. Behind that there is nothing, unless the log is poisoned. -/
structure HoldsBehind (log : RedoLog) (head : List UInt8) (first : Lsn) (frames : List Frame) :
    Prop where
  size : head.length = LogHeader.size
  starts : log.header.startLsn.val ≤ first.val
  sequence : IsSequence first frames
  nextLsn : log.nextLsn.val.toNat = first.val.toNat + frames.length
  appendOffset : log.appendOffset = (head ++ Frame.encodeAll log.header.salt frames).length
  stored : head ++ Frame.encodeAll log.header.salt frames <+: log.device.bytes
  unpoisoned : log.poisoned = false →
    log.device.bytes = head ++ Frame.encodeAll log.header.salt frames

/-- A log holds frames: they are numbered from the number in its header up to the next one, and they
are what its device has up to the end of the last one. Behind that there is nothing, unless the log
is poisoned. -/
structure Holds (log : RedoLog) (frames : List Frame) : Prop where
  sequence : IsSequence log.header.startLsn frames
  nextLsn : log.nextLsn.val.toNat = log.header.startLsn.val.toNat + frames.length
  appendOffset : log.appendOffset = (log.header.contents frames).length
  stored : log.header.contents frames <+: log.device.bytes
  unpoisoned : log.poisoned = false → log.device.bytes = log.header.contents frames

/-- A log holds frames if it holds them behind its own header, from the number there. -/
theorem holds_iff {frames : List Frame} :
    log.Holds frames ↔ log.HoldsBehind log.header.encode log.header.startLsn frames := by
  constructor
  · intro ⟨hsequence, hnext, hoffset, hstored, hbytes⟩
    exact ⟨log.header.length_encode, UInt64.le_refl _, hsequence, hnext, hoffset, hstored, hbytes⟩
  · intro ⟨_, _, hsequence, hnext, hoffset, hstored, hbytes⟩
    exact ⟨hsequence, hnext, hoffset, hstored, hbytes⟩

namespace HoldsBehind

variable {head : List UInt8} {first : Lsn} {frames : List Frame}

theorem appendOffset_eq_size (h : log.HoldsBehind head first frames)
    (hpoisoned : log.poisoned = false) : log.appendOffset = log.device.size := by
  rw [h.appendOffset, ← h.unpoisoned hpoisoned]
  rfl

/-- A log holds the same frames where other calls of its device are set to fail, and whatever it has
counted. -/
theorem of_same {log' : RedoLog} (h : log.HoldsBehind head first frames)
    (hheader : log'.header = log.header) (hnext : log'.nextLsn = log.nextLsn)
    (hoffset : log'.appendOffset = log.appendOffset)
    (hbytes : log'.device.bytes = log.device.bytes) (hpoisoned : log'.poisoned = log.poisoned) :
    log'.HoldsBehind head first frames where
  size := h.size
  starts := hheader ▸ h.starts
  sequence := h.sequence
  nextLsn := by rw [hnext]; exact h.nextLsn
  appendOffset := by rw [hoffset, hheader]; exact h.appendOffset
  stored := by rw [hheader, hbytes]; exact h.stored
  unpoisoned := by rw [hpoisoned, hheader, hbytes]; exact h.unpoisoned

/-- A frame that was to be cut off is no longer there, or lies behind what the log holds. -/
theorem discarded (h : log.HoldsBehind head first frames) (data : List UInt8) :
    (log.discarded data).HoldsBehind head first frames := by
  unfold RedoLog.discarded
  split
  · -- The bytes could not be cut off, but the contents are still what comes first.
    refine ⟨h.size, h.starts, h.sequence, h.nextLsn, h.appendOffset, ?_, by simp⟩
    exact h.stored.trans (List.prefix_append _ _)
  · exact h

/-- A frame that was stored is held behind the others. -/
theorem appended (h : log.HoldsBehind head first frames) (hpoisoned : log.poisoned = false)
    (txn : TxnId) (hshort : payload.length < UInt32.size)
    (hlsn : log.nextLsn.val.toNat + 1 < UInt64.size) :
    let f := log.frameToAppend txn payload
    ((log.extended (f.encode log.header.salt)).appended
      (f.encode log.header.salt).length).HoldsBehind head first (frames ++ [f]) := by
  intro f
  -- Nothing lay behind the contents, so that the new frame comes right behind them.
  have hbytes : log.device.bytes ++ f.encode log.header.salt =
      head ++ Frame.encodeAll log.header.salt (frames ++ [f]) := by
    rw [h.unpoisoned hpoisoned, Frame.encodeAll_concat, List.append_assoc]
  refine ⟨h.size, h.starts, h.sequence.concat h.nextLsn hlsn hshort, ?_, ?_, ?_, fun _ => hbytes⟩
  · -- The next number and the end of the log move along with the frame.
    show log.nextLsn.next.val.toNat = first.val.toNat + (frames ++ [f]).length
    rw [IsSequence.toNat_next hlsn, h.nextLsn, List.length_append, List.length_singleton]
    omega
  · show log.appendOffset + (f.encode log.header.salt).length =
      (head ++ Frame.encodeAll log.header.salt (frames ++ [f])).length
    rw [h.appendOffset, Frame.encodeAll_concat, ← List.append_assoc, ← List.length_append]
  · show head ++ Frame.encodeAll log.header.salt (frames ++ [f]) <+:
      log.device.bytes ++ f.encode log.header.salt
    exact hbytes ▸ List.prefix_refl _

/-- A log gives back what it holds. -/
theorem frames_eq (h : log.HoldsBehind head first frames)
    (hread : log.device.faults.read = false) :
    RedoLog.frames.runOn log = (.ok (frames, log.appendOffset), log) := by
  obtain ⟨rest, hbytes⟩ := h.stored
  obtain ⟨more, s, hframes, hleast, hmost, hnone⟩ := LogScan.runOn_frames_behind hread h.size
    h.starts h.sequence hbytes.symm (Nat.zero_le _)
  obtain rfl := hnone rfl
  have hvalid := Nat.le_antisymm hmost hleast
  rw [Nat.add_zero, ← h.appendOffset] at hframes hvalid
  rw [List.append_nil] at hframes
  rw [runOn_frames_of_scan hframes, hvalid]

end HoldsBehind

namespace Holds

variable {frames : List Frame}

theorem appendOffset_eq_size (h : log.Holds frames) (hpoisoned : log.poisoned = false) :
    log.appendOffset = log.device.size :=
  (holds_iff.mp h).appendOffset_eq_size hpoisoned

theorem of_same {log' : RedoLog} (h : log.Holds frames) (hheader : log'.header = log.header)
    (hnext : log'.nextLsn = log.nextLsn) (hoffset : log'.appendOffset = log.appendOffset)
    (hbytes : log'.device.bytes = log.device.bytes) (hpoisoned : log'.poisoned = log.poisoned) :
    log'.Holds frames := by
  rw [holds_iff, hheader]
  exact (holds_iff.mp h).of_same hheader hnext hoffset hbytes hpoisoned

theorem discarded (h : log.Holds frames) (data : List UInt8) :
    (log.discarded data).Holds frames := by
  rw [holds_iff, header_discarded]
  exact (holds_iff.mp h).discarded data

theorem appended (h : log.Holds frames) (hpoisoned : log.poisoned = false) (txn : TxnId)
    (hshort : payload.length < UInt32.size) (hlsn : log.nextLsn.val.toNat + 1 < UInt64.size) :
    let f := log.frameToAppend txn payload
    ((log.extended (f.encode log.header.salt)).appended (f.encode log.header.salt).length).Holds
      (frames ++ [f]) :=
  holds_iff.mpr ((holds_iff.mp h).appended hpoisoned txn hshort hlsn)

end Holds

theorem Holds.frames {frames : List Frame} (h : log.Holds frames)
    (hread : log.device.faults.read = false) :
    RedoLog.frames.runOn log = (.ok (frames, log.appendOffset), log) :=
  (holds_iff.mp h).frames_eq hread

/-! ## Flushing and resetting -/

theorem runOn_flush (log : RedoLog) :
    flush.runOn log =
      if log.device.faults.sync then (.error (.device .syncFailed), log)
      else
        (.ok (),
          { log with
            unsynced := 0
            stats := { log.stats with syncs := log.stats.syncs + 1 } }) := by
  rw [flush, runOn_bind, runOn_onDevice, Device.runOn_sync]
  cases hf : log.device.faults.sync <;> rfl

theorem Holds.flush {frames : List Frame} (h : log.Holds frames) :
    (RedoLog.flush.runOn log).2.Holds frames := by
  rw [runOn_flush]
  split
  · exact h
  · exact h.of_same rfl rfl rfl rfl rfl

/-- The log once it was reset: its device has the header alone. -/
def restarted (log : RedoLog) (startLsn : Lsn) : RedoLog :=
  let header := { log.header with startLsn }
  { log with
    header
    device := { log.device with bytes := header.encode }
    appendOffset := LogHeader.size
    nextLsn := startLsn
    unsynced := 0
    poisoned := false }

/-- A header that was written over the start of a device and cut off behind it is all that is
there. -/
theorem resize_store_header (d : Device) (header : LogHeader) :
    Device.resize (d.store 0 header.encode).bytes LogHeader.size = header.encode := by
  rw [Device.store_zero d header.encode_ne_nil, ← header.length_encode]
  exact Device.resize_append _ _

theorem eq_of_runOn_reset {startLsn : Lsn} {log' : RedoLog}
    (h : (reset startLsn).runOn log = (.ok (), log')) : log' = log.restarted startLsn := by
  obtain ⟨_, _, hheader, h⟩ := exists_of_runOn_bind h
  obtain ⟨_, _, hget, h⟩ := exists_of_runOn_bind h
  cases hheader
  cases hget
  -- The three calls of the device one after the other.
  obtain ⟨_, _, hwrite, h⟩ := exists_of_runOn_bind h
  obtain ⟨_, _, htruncate, h⟩ := exists_of_runOn_bind h
  obtain ⟨_, _, hsync, h⟩ := exists_of_runOn_bind h
  obtain ⟨d₁, hd₁, rfl⟩ := exists_of_runOn_onDevice hwrite
  obtain ⟨d₂, hd₂, rfl⟩ := exists_of_runOn_onDevice htruncate
  obtain ⟨d₃, hd₃, rfl⟩ := exists_of_runOn_onDevice hsync
  cases h
  simp only at hd₁ hd₂ hd₃
  rw [Device.eq_of_runOn_sync hd₃, Device.eq_of_runOn_truncate hd₂, Device.eq_of_runOn_write hd₁,
    resize_store_header, Device.store_zero log.device (LogHeader.encode_ne_nil _)]
  rfl

/-- A log that was reset holds nothing. -/
theorem Holds.restarted (log : RedoLog) (startLsn : Lsn) : (log.restarted startLsn).Holds [] := by
  have hcontents := LogHeader.contents_nil { log.header with startLsn }
  refine ⟨IsSequence.nil startLsn, rfl, ?_, ?_, fun _ => hcontents.symm⟩
  · show LogHeader.size = (LogHeader.contents { log.header with startLsn } []).length
    rw [hcontents, LogHeader.length_encode]
  · show LogHeader.contents { log.header with startLsn } [] <+: _
    rw [hcontents]
    exact List.prefix_refl _

end RedoLog

end TxnStore
