import TxnStore.Proofs.Log.Ledger

/-!
# Resets that fail

A reset changes the header in memory before it touches the device. If the device then fails, the
frames that were to be dropped are still counted, and the next ones are put behind them. Whether
they can be read depends on the number at which the log was to start over and on what the device
did: the frames stay in sight as long as the header asks for none later than the first of them, and
none were cut off.
-/

namespace TxnStore

open TxnStore.Action

/-! ## What a failed reset leaves -/

namespace Device

variable {d : Device} {data : List UInt8} {n : Nat}

/-- Bytes stored at the start are put over as many, and the others stay. -/
theorem store_zero_take (hdata : data.length ≤ n) (hn : n ≤ d.size) :
    d.store 0 data =
      { d with bytes := data ++ (d.bytes.take n).drop data.length ++ d.bytes.drop n } := by
  -- What lies behind the first bytes is cut at their end.
  have hsplit : d.bytes.drop data.length =
      (d.bytes.take n).drop data.length ++ d.bytes.drop n := by
    have hlength : (d.bytes.take n).length = n := by
      rw [List.length_take]
      exact Nat.min_eq_left hn
    rw [← List.drop_append_of_le_length (by omega), List.take_append_drop]
  rw [List.append_assoc, ← hsplit]
  cases data with
  | nil => cases d with | mk bytes backing faults => cases backing <;> simp [store, overlay, resize]
  | cons b rest => exact store_zero d (List.cons_ne_nil b rest)

/-- A write over the start of a device that is long enough changes no bytes behind it. -/
theorem write_zero_cases (hn : data.length ≤ d.size) :
    ∃ r head, (write 0 data).runOn d =
        (r, { d with bytes := head ++ d.bytes.drop data.length }) ∧
      head.length = data.length ∧ (r = .ok () → head = data) := by
  -- Whatever part of the data is stored, it is laid over bytes that were there before.
  have hstored : ∀ part : List UInt8, part.length ≤ data.length → ∃ head,
      d.store 0 part = { d with bytes := head ++ d.bytes.drop data.length } ∧
        head.length = data.length := by
    intro part hpart
    refine ⟨part ++ (d.bytes.take data.length).drop part.length, store_zero_take hpart hn, ?_⟩
    have hsize : d.size = d.bytes.length := rfl
    rw [List.length_append, List.length_drop, List.length_take]
    omega
  rw [write, runOn_bind, runOn_get]
  -- A write that works stores all of the data.
  cases hwrite : d.faults.write with
  | false =>
    refine ⟨.ok (), data, ?_, rfl, fun _ => rfl⟩
    simp [hwrite, store_zero_take (Nat.le_refl _) hn]
  -- A write that fails stores nothing or a part of the data.
  | true =>
    cases htorn : d.faults.torn with
    | none =>
      refine ⟨.error (.device .writeFailed), d.bytes.take data.length, ?_, ?_, fun h => by cases h⟩
      · simp [hwrite, htorn]
      · rw [List.length_take]
        exact Nat.min_eq_left hn
    | some n =>
      obtain ⟨head, hhead, hlength⟩ := hstored (data.take n) (List.length_take_le' n data)
      refine ⟨.error (.device .writeFailed), head, ?_, hlength, fun h => by cases h⟩
      simp [hwrite, htorn, runOn_bind, hhead]

end Device

namespace RedoLog

variable {log : RedoLog} {head : List UInt8} {first startLsn : Lsn} {frames : List Frame}

def resetHeader (log : RedoLog) (startLsn : Lsn) : LogHeader := { log.header with startLsn }

/-- A reset succeeds, or it leaves its header in memory and either all that lay behind the header of
the device or nothing of it. -/
theorem reset_cases (startLsn : Lsn) (hsize : LogHeader.size ≤ log.device.size) :
    (reset startLsn).runOn log = (.ok (), log.restarted startLsn) ∨
      ∃ err device,
        (reset startLsn).runOn log =
            (.error err, { log with header := log.resetHeader startLsn, device }) ∧
          ((∃ head, head.length = LogHeader.size ∧
              device.bytes = head ++ log.device.bytes.drop LogHeader.size) ∨
            device.bytes = (log.resetHeader startLsn).encode) := by
  let header := log.resetHeader startLsn
  have hlength : header.encode.length = LogHeader.size := header.length_encode
  have hfits : header.encode.length ≤ log.device.size := hlength ▸ hsize
  obtain ⟨r, head, hwrite, hhead, hok⟩ := Device.write_zero_cases hfits
  rw [hlength] at hwrite hhead
  -- A head without what lies behind it is what is left after the cut.
  have hcut :
      Device.resize (head ++ log.device.bytes.drop LogHeader.size) LogHeader.size = head := by
    rw [← hhead]
    exact Device.resize_append _ _
  rw [reset]
  simp only [runOn_bind, runOn_modify, runOn_get, runOn_onDevice]
  rw [show LogHeader.encode { log.header with startLsn } = header.encode from rfl, hwrite]
  -- The header may not be written, the cut may fail, and so may the sync.
  cases r with
  | error err => exact .inr ⟨err, _, rfl, .inl ⟨head, hhead, rfl⟩⟩
  | ok u =>
    obtain rfl := hok rfl
    simp only [Device.runOn_truncate, Device.runOn_sync]
    cases htruncate : log.device.faults.truncate with
    | true => exact .inr ⟨_, _, rfl, .inl ⟨_, hhead, rfl⟩⟩
    | false =>
      simp only [Bool.false_eq_true, if_false, hcut]
      cases hsync : log.device.faults.sync with
      | true => exact .inr ⟨_, _, rfl, .inr rfl⟩
      | false => exact .inl rfl

theorem HoldsBehind.size_le (h : log.HoldsBehind head first frames) :
    LogHeader.size ≤ log.device.size := by
  have hlength := h.stored.length_le
  rw [List.length_append, h.size] at hlength
  exact Nat.le_trans (Nat.le_add_right _ _) hlength

/-- A log whose frames were not cut off holds them behind another head, if the number at which it
was to start over is no later than theirs. -/
theorem HoldsBehind.reset_failed (h : log.HoldsBehind head first frames) {err : StoreError}
    {log' : RedoLog} (hreset : (reset startLsn).runOn log = (.error err, log'))
    (hstarts : startLsn.val ≤ first.val) (hkept : log.appendOffset ≤ log'.device.size) :
    log'.header.salt = log.header.salt ∧ ∃ head', log'.HoldsBehind head' first frames := by
  -- A reset that goes through is no failed one.
  rcases reset_cases startLsn h.size_le with hok | ⟨err', device, hrun, hdevice⟩
  · rw [hok] at hreset
    cases hreset
  rw [hrun] at hreset
  cases hreset
  refine ⟨rfl, ?_⟩
  rcases hdevice with ⟨head', hlength, hbytes⟩ | hbytes
  · -- Only the head is another one.
    refine ⟨head', hlength, hstarts, h.sequence, h.nextLsn, ?_, ?_, fun hpoisoned => ?_⟩
    · show log.appendOffset = _
      rw [h.appendOffset, List.length_append, List.length_append, hlength, h.size]
      rfl
    · -- The frames lie behind the new head as they lay behind the old one.
      obtain ⟨rest, hstored⟩ := h.stored
      refine ⟨rest, ?_⟩
      show head' ++ Frame.encodeAll log.header.salt frames ++ rest = device.bytes
      rw [hbytes, ← hstored, List.append_assoc, List.append_assoc, List.drop_left' h.size]
    · show device.bytes = head' ++ Frame.encodeAll log.header.salt frames
      rw [hbytes, h.unpoisoned hpoisoned, List.drop_left' h.size]
  · -- There is nothing behind the new head, so that there were no frames.
    have hsize : device.size = LogHeader.size := by
      rw [Device.size, hbytes, LogHeader.length_encode]
    have hnone : Frame.encodeAll log.header.salt frames = [] := by
      rw [h.appendOffset, List.length_append, h.size] at hkept
      apply List.eq_nil_of_length_eq_zero
      have hkept' : LogHeader.size + (Frame.encodeAll log.header.salt frames).length ≤
        device.size := hkept
      omega
    have hcontents : (log.resetHeader startLsn).encode ++ Frame.encodeAll log.header.salt frames =
        device.bytes := by
      rw [hnone, List.append_nil, hbytes]
    refine ⟨_, LogHeader.length_encode _, hstarts, h.sequence, h.nextLsn, ?_,
      hcontents ▸ List.prefix_refl _, fun _ => hcontents.symm⟩
    show log.appendOffset = (_ ++ Frame.encodeAll log.header.salt frames).length
    rw [h.appendOffset, List.length_append, List.length_append, h.size, LogHeader.length_encode]

/-! ## Opening the log again -/

/-- Opening a log whose frames stand behind a head that can be read gives a log that yields them,
and behind them only what was left of frames that could not be cut off. -/
theorem HoldsBehind.openOn (h : log.HoldsBehind head first frames) {header : LogHeader}
    {options : LogOptions} (hheader : LogHeader.decode head = .ok header)
    (hsalt : header.salt = log.header.salt) (hoptions : options.salt = log.header.salt)
    (hstarts : header.startLsn.val ≤ first.val) (hread : log.device.faults.read = false)
    (hlength : log.device.faults.length = false)
    (htruncate : log.device.faults.truncate = false) :
    ∃ log' device more offset, RedoLog.openOn options log.device = (.ok log', device) ∧
      (RedoLog.frames.runOn log').1 = .ok (frames ++ more, offset) ∧
      (log.poisoned = false → more = []) := by
  obtain ⟨rest, hstored⟩ := h.stored
  rw [← hsalt] at hstored
  let contents := head ++ Frame.encodeAll header.salt frames
  have hsize : log.device.size = contents.length + rest.length := by
    rw [Device.size, ← hstored, List.length_append]
  -- The header is read, and then the frames up to the end of the device.
  have hload := runOn_loadHeader hread hlength h.size hheader (hsalt.trans hoptions.symm)
    (hstored.symm.trans (List.append_assoc ..))
  obtain ⟨more, scan, hframes, hleast, hmost, hnone⟩ := LogScan.runOn_frames_behind hread h.size
    hstarts h.sequence hstored.symm (Nat.le_refl rest.length)
  rw [← hsize] at hframes hmost
  have hopen := openOn_of_scan hlength htruncate hload hframes hmost
  let opened := openedAt options header (frames ++ more) scan.validUpTo log.device
  -- What is left of the device begins with the same frames, and is read once more.
  have hleft : opened.device.bytes =
      contents ++ rest.take (scan.validUpTo - contents.length) := by
    show log.device.bytes.take scan.validUpTo = _
    rw [← hstored, List.take_append, List.take_of_length_le hleast]
  have hextra : scan.validUpTo - contents.length ≤
      (rest.take (scan.validUpTo - contents.length)).length := by
    rw [List.length_take]
    omega
  obtain ⟨more', scan', hframes', -, -, hnone'⟩ :=
    LogScan.runOn_frames_behind (d := opened.device) hread h.size hstarts h.sequence hleft hextra
  rw [show contents.length + (scan.validUpTo - contents.length) = opened.appendOffset from
    Nat.add_sub_cancel' hleast] at hframes'
  refine ⟨opened, _, more', scan'.validUpTo, hopen, ?_, fun hpoisoned => hnone' ?_⟩
  · exact congrArg Prod.fst (runOn_frames_of_scan hframes')
  · -- A log that is not poisoned has nothing behind its frames.
    have hbytes := congrArg List.length (h.unpoisoned hpoisoned)
    rw [← hsalt] at hbytes
    have hend : log.device.size = contents.length := hbytes
    omega

end RedoLog

/-! ## Runs with resets that fail -/

namespace Ledger

variable {b : Ledger} {salt : UInt64}

/-- A reset that fails asks for no later number than the first one in the log, and cuts no frames
off. -/
def Tolerates (b : Ledger) (faults : DeviceFaults) : LogCall → Prop
  | .reset startLsn =>
    match (RedoLog.reset startLsn).runOn (b.log.withFaults faults) with
    | (.ok _, _) => True
    | (.error _, log) =>
      startLsn.val ≤ b.startLsn.val ∧ b.log.appendOffset ≤ log.device.size
  | c => b.Permits faults c

/-- The same for each of a run of calls. -/
def ToleratesAll (b : Ledger) : List (DeviceFaults × LogCall) → Prop
  | [] => True
  | (faults, c) :: rest => b.Tolerates faults c ∧ (b.call faults c).ToleratesAll rest

/-- The log holds the frames of the ledger behind some head. -/
structure IsHeld (b : Ledger) (salt : UInt64) : Prop where
  salt : b.log.header.salt = salt
  holds : ∃ head, b.log.HoldsBehind head b.startLsn b.acknowledged

namespace IsHeld

/-- Whatever head the device has, a log goes on holding the frames of its ledger. -/
theorem call (h : b.IsHeld salt) (faults : DeviceFaults) {c : LogCall}
    (hc : b.Tolerates faults c) : (b.call faults c).IsHeld salt := by
  obtain ⟨hsalt, head, hholds⟩ := h
  have hlog : (b.log.withFaults faults).HoldsBehind head b.startLsn b.acknowledged :=
    hholds.of_same rfl rfl rfl rfl rfl
  -- An append is refused, discarded or acknowledged.
  cases c with
  | append txn payload =>
    rcases RedoLog.append_cases (b.log.withFaults faults) txn payload hlog.appendOffset_eq_size with
      ⟨err, hrun⟩ | ⟨-, err, data, hrun⟩ | ⟨hpoisoned, hshort, hrun⟩
    · simp only [Ledger.call, hrun]
      exact ⟨hsalt, head, hlog⟩
    · simp only [Ledger.call, hrun]
      refine ⟨?_, head, hlog.discarded data⟩
      rw [RedoLog.header_discarded]
      exact hsalt
    · simp only [Ledger.call, hrun]
      have hlsn := hc _ (congrArg Prod.fst hrun)
      exact ⟨hsalt, head, hlog.appended hpoisoned txn hshort hlsn⟩
  -- A flush moves no bytes.
  | flush =>
    simp only [Ledger.call, RedoLog.runOn_flush]
    split
    · exact ⟨hsalt, head, hlog⟩
    · exact ⟨hsalt, head, hlog.of_same rfl rfl rfl rfl rfl⟩
  | reset startLsn =>
    simp only [Tolerates] at hc
    rcases hrun : (RedoLog.reset startLsn).runOn (b.log.withFaults faults) with ⟨err | u, log⟩
    · -- The frames are still there, behind another head.
      rw [hrun] at hc
      obtain ⟨hsame, head', hholds'⟩ := hlog.reset_failed hrun hc.1 hc.2
      simp only [Ledger.call, hrun]
      exact ⟨hsame.trans hsalt, head', hholds'⟩
    · -- A reset that succeeds starts over with no frames.
      simp only [Ledger.call, hrun]
      rw [RedoLog.eq_of_runOn_reset hrun]
      exact ⟨hsalt, _, RedoLog.holds_iff.mp (RedoLog.Holds.restarted _ startLsn)⟩

theorem run (h : b.IsHeld salt) {calls : List (DeviceFaults × LogCall)}
    (hcalls : b.ToleratesAll calls) : (b.run calls).IsHeld salt := by
  induction calls generalizing b with
  | nil => exact h
  | cons c rest ih => exact ih (h.call c.1 hcalls.1) hcalls.2

end IsHeld

/-- A log that holds frames yields them and all that it acknowledges after them, also if resets fail
that ask for no later number than the first one and cut no frames off. So does the log that is
opened again, if a header that asks for no later number is read from its device. -/
theorem failed_resets_keep_acknowledged {log : RedoLog} {frames : List Frame}
    (h : log.Holds frames) {calls : List (DeviceFaults × LogCall)}
    (hcalls : (Ledger.mk log log.header.startLsn frames).ToleratesAll calls) {b : Ledger}
    (hb : (Ledger.mk log log.header.startLsn frames).run calls = b) :
    (∀ faults, faults.read = false →
        (RedoLog.frames.runOn (b.log.withFaults faults)).1 =
          .ok (b.acknowledged, b.log.appendOffset)) ∧
      ∀ header options faults,
        LogHeader.decode (b.log.device.bytes.take LogHeader.size) = .ok header →
        header.salt = log.header.salt → options.salt = log.header.salt →
        header.startLsn.val ≤ b.startLsn.val → faults.read = false → faults.length = false →
        faults.truncate = false →
          ∃ log' device more offset,
            RedoLog.openOn options (b.log.withFaults faults).device = (.ok log', device) ∧
              (RedoLog.frames.runOn log').1 = .ok (b.acknowledged ++ more, offset) ∧
              (b.log.poisoned = false → more = []) := by
  -- What the run keeps is stated behind any head of the right length.
  have hheld : (Ledger.mk log log.header.startLsn frames).IsHeld log.header.salt :=
    ⟨rfl, _, RedoLog.holds_iff.mp h⟩
  obtain ⟨hsalt, head, hholds⟩ := hb ▸ hheld.run hcalls
  have hlog : ∀ faults, (b.log.withFaults faults).HoldsBehind head b.startLsn b.acknowledged :=
    fun faults => hholds.of_same rfl rfl rfl rfl rfl
  constructor
  · intro faults hread
    rw [(hlog faults).frames_eq hread]
    rfl
  · -- The header that is on the device decides whether the log can be opened again.
    intro header options faults hheader hsame hoptions hstarts hread hlength htruncate
    have hhead : b.log.device.bytes.take LogHeader.size = head := by
      obtain ⟨rest, hstored⟩ := hholds.stored
      rw [← hstored, List.append_assoc, ← hholds.size, List.take_left]
    rw [hhead] at hheader
    exact (hlog faults).openOn hheader (hsame.trans hsalt.symm) (hoptions.trans hsalt.symm) hstarts
      hread hlength htruncate

/-- A log of one frame is to start over at the same number and cannot be cut. The next frame is read
behind the old one, also once the log is opened again. -/
theorem failed_resets_keep_acknowledged_of_stuck_frame :
    let options := LogOptions.basic 7 .always
    let f : Frame := ⟨⟨1⟩, ⟨1⟩, [0xAA]⟩
    let g : Frame := ⟨⟨2⟩, ⟨2⟩, [0xBB]⟩
    let log := RedoLog.reopened options ⟨7, ⟨1⟩⟩ [f]
      (Device.ofBytes (LogHeader.contents ⟨7, ⟨1⟩⟩ [f]))
    let stuck : DeviceFaults := { DeviceFaults.none with truncate := true }
    let calls : List (DeviceFaults × LogCall) :=
      [(stuck, .reset ⟨1⟩), (.none, .append ⟨2⟩ [0xBB])]
    log.Holds [f] ∧ (Ledger.mk log ⟨1⟩ [f]).ToleratesAll calls ∧
      ∃ b, (Ledger.mk log ⟨1⟩ [f]).run calls = b ∧ b.acknowledged = [f, g] ∧
        (RedoLog.frames.runOn (b.log.withFaults .none)).1 = .ok ([f, g], b.log.appendOffset) ∧
        ∃ log' device offset,
          RedoLog.openOn options (b.log.withFaults .none).device = (.ok log', device) ∧
            (RedoLog.frames.runOn log').1 = .ok ([f, g], offset) := by
  intro options f g log stuck calls
  -- The log with one frame is reached by opening.
  have hseq : IsSequence ⟨1⟩ [f] :=
    (IsSequence.nil ⟨1⟩).concat (f := f) rfl (by decide) (by decide)
  have hholds : log.Holds [f] := RedoLog.holds_reopened hseq rfl
  have hcalls : (Ledger.mk log ⟨1⟩ [f]).ToleratesAll calls := by
    refine ⟨?_, fun lsn h => ?_, trivial⟩
    · -- The header is written, and then nothing is cut off.
      have hsize : ((RedoLog.reset ⟨1⟩).runOn (log.withFaults stuck)).2.device.size =
          log.appendOffset := by decide +kernel
      simp only [Tolerates]
      split
      · trivial
      · next hrun =>
        rw [hrun] at hsize
        exact ⟨UInt64.le_refl _, Nat.le_of_eq hsize.symm⟩
    · -- The second append is given the number after the first frame.
      have hlsn : (((RedoLog.append ⟨2⟩ [0xBB]).runOn
          ((((Ledger.mk log ⟨1⟩ [f]).call stuck (.reset ⟨1⟩)).log).withFaults .none)).1).toOption =
            some ⟨2⟩ := by decide +kernel
      rw [h] at hlsn
      obtain rfl := Option.some.inj hlsn
      decide
  -- The state at the end is computed, and so the head is known.
  let b := (Ledger.mk log ⟨1⟩ [f]).run calls
  have hend : b.acknowledged = [f, g] ∧ b.log.poisoned = false ∧
      b.log.device.bytes.take LogHeader.size = LogHeader.encode ⟨7, ⟨1⟩⟩ := by
    decide +kernel
  obtain ⟨hacknowledged, hpoisoned, hhead⟩ := hend
  have hheader := hhead ▸ LogHeader.decode_encode ⟨7, ⟨1⟩⟩
  obtain ⟨hframes, hopen⟩ := failed_resets_keep_acknowledged hholds hcalls (b := b) rfl
  obtain ⟨log', device, more, offset, hopened, hread, hnone⟩ :=
    hopen ⟨7, ⟨1⟩⟩ options .none hheader rfl rfl (by decide) rfl rfl rfl
  rw [hnone hpoisoned, hacknowledged] at hread
  refine ⟨hholds, hcalls, b, rfl, hacknowledged, ?_, log', device, offset, hopened, hread⟩
  rw [hframes .none rfl, hacknowledged]

/-- A log of one frame is to start over at a later number, and its header cannot be written. The
next frame is acknowledged, and neither of the two is read. -/
theorem acknowledged_lost_after_failed_reset :
    let f : Frame := ⟨⟨1⟩, ⟨1⟩, [0xAA]⟩
    let g : Frame := ⟨⟨2⟩, ⟨2⟩, [0xBB]⟩
    let log := RedoLog.reopened (LogOptions.basic 5 .always) ⟨5, ⟨1⟩⟩ [f]
      (Device.ofBytes (LogHeader.contents ⟨5, ⟨1⟩⟩ [f]))
    let full : DeviceFaults := { DeviceFaults.none with write := true }
    let b := (Ledger.mk log ⟨1⟩ [f]).run [(full, .reset ⟨10⟩), (.none, .append ⟨2⟩ [0xBB])]
    b.acknowledged = [f, g] ∧ b.log.poisoned = false ∧
      (RedoLog.frames.runOn b.log).1.toOption = some ([], LogHeader.size) := by
  decide +kernel

end Ledger

end TxnStore
