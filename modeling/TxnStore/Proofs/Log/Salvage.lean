import TxnStore.Proofs.Log.RefusedFrames

/-!
# Opening any bytes

Whatever lies in a file, opening it as a log either finds its header damaged or makes it a log: a
header and, behind it, the frames that are read, one behind the other, and nothing else. A scan
gives only chained frames, and where it ends is where they end, so that reading what was kept gives
the same frames once more and opening it again changes nothing.
-/

namespace TxnStore

open TxnStore.Action

/-! ## Reading -/

namespace Device

variable {d d' : Device} {offset n : Nat} {bs : List UInt8}

/-- A read that is answered gives as many bytes as were asked for, from where they lie. -/
theorem exists_of_runOn_read (h : (read offset n).runOn d = (.ok bs, d')) :
    bs.length = n ∧ ∃ rest, d.bytes.drop offset = bs ++ rest := by
  rw [read, runOn_bind, runOn_get] at h
  simp only at h
  split at h
  · cases h
  next hfault =>
  cases h
  refine ⟨?_, _, (List.take_append_drop n _).symm⟩
  have hsize : d.size = d.bytes.length := rfl
  -- Either the range lies within the file, or nothing is asked for.
  have hrange : n = 0 ∨ offset + n ≤ d.size := by
    unfold readFault memoryReadFault hostReadFault at hfault
    grind
  rw [List.length_take, List.length_drop]
  omega

end Device

/-! ## What a scan gives -/

namespace LogScan

variable {d d' : Device} {s s' : LogScan}

/-- A step of a scan stops, or it gives a frame whose bytes stand at its place. -/
theorem next_cases {found : Option Frame} (h : s.next.runOn d = (.ok (found, s'), d')) :
    d' = d ∧
      ((found = none ∧ s' = s.stop) ∨
        ∃ f spare rest, found = some f ∧ spare.length = 4 ∧ f.payload.length < UInt32.size ∧
          s.header.startLsn.val ≤ f.lsn.val ∧ s.expected.all (· == f.lsn) = true ∧
          d.bytes.drop s.offset = f.encodeWith s.header.salt spare ++ rest ∧
          s' = s.past f (s.offset + (f.encodeWith s.header.salt spare).length)) := by
  unfold next at h
  -- The scan ends for lack of room, of a header, of its admission, or of a right sum.
  split at h
  · cases h
    exact ⟨rfl, .inl ⟨rfl, rfl⟩⟩
  obtain ⟨head, d₁, hhead, hgoes⟩ := exists_of_runOn_bind h
  obtain rfl := Device.eq_of_runOn_read hhead
  obtain ⟨hsize, rest, hrest⟩ := Device.exists_of_runOn_read hhead
  split at hgoes
  · cases hgoes
    exact ⟨rfl, .inl ⟨rfl, rfl⟩⟩
  next header hdecode =>
  split at hgoes
  · next hadmits =>
    obtain ⟨payload, d₂, hpayload, hends⟩ := exists_of_runOn_bind hgoes
    obtain rfl := Device.eq_of_runOn_read hpayload
    obtain ⟨hlength, rest', hrest'⟩ := Device.exists_of_runOn_read hpayload
    split at hends
    · next hsum =>
      cases hends
      -- The header is the one that the frame has in this log.
      have hshort : payload.length < UInt32.size := hlength ▸ header.length.toNat_lt
      have hheader : Frame.header ⟨header.lsn, header.txn, payload⟩ s.header.salt = header := by
        have hword : UInt32.ofNat payload.length = header.length := by
          rw [hlength, UInt32.ofNat_toNat]
        simp only [Frame.header, hword, hsum]
      -- The bytes that were read are those that the frame is encoded to.
      obtain ⟨spare, hspare, rfl⟩ := FrameHeader.exists_of_decode hsize hdecode
      simp only [admits, Bool.and_eq_true, decide_eq_true_eq] at hadmits
      obtain ⟨⟨hstarts, hexpected⟩, -⟩ := hadmits
      rw [← List.drop_drop, hrest, List.drop_left' hsize] at hrest'
      have hencode : Frame.encodeWith ⟨header.lsn, header.txn, payload⟩ s.header.salt spare =
          header.encodeWith spare ++ payload := by
        rw [Frame.encodeWith, hheader]
      refine ⟨rfl, .inr ⟨_, spare, rest', rfl, hspare, hshort, hstarts, hexpected, ?_, ?_⟩⟩
      · rw [hencode, hrest, hrest', List.append_assoc]
      · rw [hencode, List.length_append, hsize, hlength, ← Nat.add_assoc]
    · cases hends
      exact ⟨rfl, .inl ⟨rfl, rfl⟩⟩
  · cases hgoes
    exact ⟨rfl, .inl ⟨rfl, rfl⟩⟩

/-- A scan gives chained frames, and what it counts as valid ends with them. -/
theorem collect_cases (hvalid : s.validUpTo = s.offset) {bound : Nat} {frames : List Frame}
    (h : (collect bound s).runOn d = (.ok (frames, s'), d')) :
    d' = d ∧ ∃ stored rest, Frame.Chained s.header s.expected frames stored ∧
      d.bytes.drop s.offset = stored ++ rest ∧ s'.validUpTo = s.offset + stored.length := by
  -- By induction on the bound, each frame of which lies behind the one before.
  induction bound generalizing s frames with
  | zero =>
    cases h
    exact ⟨rfl, [], _, .nil _, rfl, hvalid⟩
  | succ bound ih =>
    rw [collect] at h
    obtain ⟨⟨found, s₁⟩, d₁, hnext, hgoes⟩ := exists_of_runOn_bind h
    obtain ⟨rfl, ⟨rfl, rfl⟩ |
      ⟨f, spare, rest, rfl, hspare, hshort, hstarts, hexpected, hbytes, rfl⟩⟩ := next_cases hnext
    · -- The scan has ended, and what it has found before is all.
      cases hgoes
      exact ⟨rfl, [], _, .nil _, rfl, hvalid⟩
    · obtain ⟨⟨others, s₂⟩, d₂, hothers, hends⟩ := exists_of_runOn_bind hgoes
      cases hends
      -- The other frames are chained behind the first one.
      obtain ⟨rfl, stored, rest', hchained, hstored, hend⟩ := ih rfl hothers
      have hpast : d'.bytes.drop (s.offset + (f.encodeWith s.header.salt spare).length) = rest := by
        rw [← List.drop_drop, hbytes, List.drop_left]
      refine ⟨rfl, f.encodeWith s.header.salt spare ++ stored, rest',
        .cons hspare hshort hstarts hexpected hchained, ?_, ?_⟩
      · rw [hbytes, List.append_assoc, ← hstored, ← hpast]
        rfl
      · rw [hend, List.length_append, ← Nat.add_assoc]
        rfl

end LogScan

/-! ## Numbers -/

/-- A frame in front of a sequence that goes on with the next number. -/
theorem IsSequence.cons {f : Frame} {rest : List Frame} (h : IsSequence f.lsn.next rest)
    (hlsn : f.lsn.val.toNat + 1 < UInt64.size) (hshort : f.payload.length < UInt32.size) :
    IsSequence f.lsn (f :: rest) := by
  have hnext := toNat_next hlsn
  have hbounded := h.bounded
  -- The first frame has the number before that of the second one.
  refine ⟨fun {i g} hg => ?_, ?_, fun hg => ?_⟩
  · cases i with
    | zero =>
      cases hg
      rfl
    | succ i =>
      have hg' := h.lsn (i := i) hg
      omega
  · rw [List.length_cons]
    omega
  · -- Every payload is short, that of the new frame too.
    rcases List.mem_cons.mp hg with rfl | hg
    · exact hshort
    · exact h.short hg

namespace Frame.Chained

variable {header : LogHeader} {frames : List Frame} {bs : List UInt8} {l : Lsn}

/-- Chained frames are numbered one after the other if their numbers are not used up. -/
theorem isSequence (h : Chained header (some l) frames bs)
    (hlsns : ∀ f ∈ frames, f.lsn.val.toNat + 1 < UInt64.size) : IsSequence l frames := by
  generalize hsome : some l = expected at h
  induction h generalizing l with
  | nil => exact IsSequence.nil l
  | cons _ hshort _ hexpected _ ih =>
    subst hsome
    obtain rfl : l = _ := eq_of_beq hexpected
    exact (ih (fun g hg => hlsns g (List.mem_cons_of_mem _ hg)) rfl).cons
      (hlsns _ List.mem_cons_self) hshort

/-- The first of chained frames may have any number from that of the log on. -/
theorem exists_isSequence (h : Chained header none frames bs)
    (hlsns : ∀ f ∈ frames, f.lsn.val.toNat + 1 < UInt64.size) :
    ∃ first, header.startLsn.val ≤ first.val ∧ IsSequence first frames := by
  cases h with
  | nil => exact ⟨header.startLsn, UInt64.le_refl _, IsSequence.nil _⟩
  | @cons _ f _ _ _ hspare hshort hstarts _ hrest =>
    have hchained : Chained header (some f.lsn) _ _ :=
      .cons hspare hshort hstarts (beq_self_eq_true f.lsn) hrest
    exact ⟨f.lsn, hstarts, hchained.isSequence hlsns⟩

end Frame.Chained

/-! ## Opening -/

namespace RedoLog

variable {options : LogOptions} {d : Device} {header : LogHeader} {frames : List Frame}
  {stored rest : List UInt8}

/-- A new header is all that is left of a device. -/
theorem runOn_format (hwrite : d.faults.write = false) (htruncate : d.faults.truncate = false) :
    (format options).runOn d = (.ok ⟨options.salt, options.startLsn⟩,
      { d with bytes := LogHeader.encode ⟨options.salt, options.startLsn⟩ }) := by
  let header : LogHeader := ⟨options.salt, options.startLsn⟩
  have hstore : (Device.write 0 header.encode).runOn d =
      (.ok (), { d with bytes := header.encode ++ d.bytes.drop header.encode.length }) := by
    rw [Device.write, runOn_bind, runOn_get]
    simp only [hwrite, Bool.false_eq_true, if_false, runOn_set,
      Device.store_zero d header.encode_ne_nil]
  -- The rest of the old contents is cut off behind the header.
  have hcut : Device.resize (header.encode ++ d.bytes.drop header.encode.length) LogHeader.size =
      header.encode := header.length_encode ▸ Device.resize_append _ _
  rw [format, runOn_bind, hstore]
  simp only [runOn_bind, Device.runOn_truncate, htruncate, Bool.false_eq_true, if_false, hcut]
  rfl

/-- A device on which nothing fails has a header that is damaged or of another log, or it has one
that can be read, a new one if it was too short. -/
theorem loadHeader_cases (options : LogOptions) (hfaults : d.faults = .none) :
    (∃ damage, (loadHeader options).runOn d = (.error (.corruption damage), d)) ∨
      ∃ header rest d₁, (loadHeader options).runOn d = (.ok header, d₁) ∧ d₁.faults = .none ∧
        header.salt = options.salt ∧ d₁.bytes = header.encode ++ rest ∧
        (LogHeader.size ≤ d.size → d₁ = d) := by
  -- No call of the device fails.
  have hlength : d.faults.length = false := by rw [hfaults]; rfl
  have hread : d.faults.read = false := by rw [hfaults]; rfl
  have hwrite : d.faults.write = false := by rw [hfaults]; rfl
  have htruncate : d.faults.truncate = false := by rw [hfaults]; rfl
  -- A short device is formatted, and a long one has a header that may be damaged.
  rcases Nat.lt_or_ge d.size LogHeader.size with hshort | hlong
  · rw [loadHeader, runOn_bind, runOn_length hlength]
    simp only [if_pos hshort, runOn_format hwrite htruncate]
    exact .inr ⟨_, [], _, rfl, hfaults, rfl, (List.append_nil _).symm, fun hlong =>
      absurd hshort (Nat.not_lt_of_le hlong)⟩
  · have hsize : (d.bytes.take LogHeader.size).length = LogHeader.size := by
      rw [List.length_take]
      exact Nat.min_eq_left hlong
    have hsplit := (List.take_append_drop LogHeader.size d.bytes).symm
    rw [runOn_loadHeader_head options hread hlength hsize hsplit]
    cases hdecode : LogHeader.decode (d.bytes.take LogHeader.size) with
    | error err =>
      obtain ⟨damage, rfl⟩ := LogHeader.exists_of_decode_error hdecode
      exact .inl ⟨damage, rfl⟩
    -- The header is decoded, and it may belong to another log.
    | ok header =>
      by_cases hsalt : header.salt = options.salt
      · rw [LogHeader.eq_encode_of_decode hsize hdecode] at hsplit
        exact .inr ⟨header, _, d, by simp only [Except.bind, if_pos hsalt], hfaults, hsalt, hsplit,
          fun _ => rfl⟩
      · exact .inl ⟨.logSalt, by simp only [Except.bind, if_neg hsalt]⟩

/-- The log that is left of a device with a header is its header and the frames that are read. -/
theorem exists_openedAt_of_runOn_loadHeader {d₁ : Device} (hfaults : d₁.faults = .none)
    (hload : (loadHeader options).runOn d = (.ok header, d₁))
    (hbytes : d₁.bytes = header.encode ++ rest) :
    ∃ frames stored, Frame.Chained header none frames stored ∧ stored <+: rest ∧
      let log := openedAt options header frames (header.encode ++ stored).length d₁
      openOn options d = (.ok log, log.device) ∧ log.device.bytes = header.encode ++ stored := by
  have hlength : d₁.faults.length = false := by rw [hfaults]; rfl
  have hread : d₁.faults.read = false := by rw [hfaults]; rfl
  have htruncate : d₁.faults.truncate = false := by rw [hfaults]; rfl
  have hinside : LogHeader.size ≤ d₁.size := by
    rw [Device.size, hbytes, List.length_append, header.length_encode]
    exact Nat.le_add_right _ _
  -- The scan ends somewhere, and the bytes before its end are those of the frames.
  obtain ⟨frames, s, hrun, -, hend⟩ := LogScan.collect_total (s := .start header d₁.size) hread
    (Nat.le_refl _) (Nat.le_refl _) hinside (d₁.size - LogHeader.size + 1)
  obtain ⟨-, stored, rest', hchained, hstored, hvalid⟩ := LogScan.collect_cases rfl hrun
  have hvalid' : s.validUpTo = (header.encode ++ stored).length := by
    rw [hvalid, List.length_append, header.length_encode]
    rfl
  have hrest : rest = stored ++ rest' := by
    rw [← hstored, hbytes]
    exact (List.drop_left' header.length_encode).symm
  -- The device is cut behind the last frame found.
  have hopen := openOn_of_scan hlength htruncate hload hrun hend
  rw [hvalid'] at hopen
  refine ⟨frames, stored, hchained, ⟨rest', hrest.symm⟩, hopen, ?_⟩
  show d₁.bytes.take (header.encode ++ stored).length = _
  rw [hbytes, hrest, ← List.append_assoc, List.take_left]

/-- A log gives the frames that are chained on its device. -/
theorem runOn_frames_chained {log : RedoLog} (hread : log.device.faults.read = false)
    (hchained : Frame.Chained log.header none frames stored)
    (hbytes : log.device.bytes = log.header.encode ++ stored)
    (hoffset : log.appendOffset = log.device.size) :
    RedoLog.frames.runOn log = (.ok (frames, log.device.size), log) := by
  obtain ⟨s, hframes, hvalid⟩ := LogScan.runOn_frames_chained hread log.header.length_encode
    hchained (hbytes.trans (List.append_nil _).symm)
  have hsize : log.device.size = (log.header.encode ++ stored).length := congrArg List.length hbytes
  rw [← hsize, ← hoffset] at hframes hvalid
  rw [runOn_frames_of_scan hframes, hvalid, hoffset]

/-! ## The main statement -/

/-- Take any bytes as a file in memory on which nothing fails, and open it as a log. The only way
for this to fail is a header that is damaged or of another log, hence no read goes past the end of
the file, which would be another failure. Otherwise the file is afterwards a header of the log and
the bytes of the frames that the log gives, with nothing between or behind them; what was kept is
the beginning of what was there, unless that was too short for a header. The numbers of the frames
begin at or after that of the header and follow one another if they stay below 2^64. Opening the
file again with the same options gives a log with the same frames and the same next number, cuts
nothing off and leaves the file as it is. -/
theorem openOn_any_bytes (options : LogOptions) (bs : List UInt8) :
    (∀ err d, openOn options (.ofBytes bs) = (.error err, d) →
        ∃ damage, err = .corruption damage) ∧
      ∀ log d, openOn options (.ofBytes bs) = (.ok log, d) →
        log.device = d ∧ log.header.salt = options.salt ∧
        ∃ frames stored, RedoLog.frames.runOn log = (.ok (frames, d.size), log) ∧
          d.bytes = log.header.encode ++ stored ∧
          Frame.Chained log.header none frames stored ∧
          (LogHeader.size ≤ bs.length → d.bytes <+: bs) ∧
          ((∀ f ∈ frames, f.lsn.val.toNat + 1 < UInt64.size) →
            ∃ first, log.header.startLsn.val ≤ first.val ∧ IsSequence first frames) ∧
          ∃ log', openOn options d = (.ok log', d) ∧
            RedoLog.frames.runOn log' = (.ok (frames, d.size), log') ∧
            log'.nextLsn = log.nextLsn ∧ log'.stats.truncatedBytes = 0 := by
  -- The header is damaged, or there is one and some frames behind it.
  rcases loadHeader_cases (d := .ofBytes bs) options rfl with
    ⟨damage, hload⟩ | ⟨header, rest, d₁, hload, hfaults, hsalt, hbytes, hsame⟩
  · have hopen : openOn options (.ofBytes bs) = (.error (.corruption damage), .ofBytes bs) := by
      rw [openOn, openDevice, runOn_bind, hload]
    rw [hopen]
    refine ⟨fun err d h => ?_, fun log d h => ?_⟩
    · cases h
      exact ⟨damage, rfl⟩
    · cases h
  · obtain ⟨frames, stored, hchained, hprefix, hopen, hkept⟩ :=
      exists_openedAt_of_runOn_loadHeader hfaults hload hbytes
    rw [hopen]
    -- Opening does not fail once the header is loaded.
    refine ⟨fun err d h => ?_, fun log d h => ?_⟩
    · cases h
    cases h
    -- No call of the device fails, before the cut and after it.
    have hread : d₁.faults.read = false := by rw [hfaults]; rfl
    have hlength : d₁.faults.length = false := by rw [hfaults]; rfl
    let log := openedAt options header frames (header.encode ++ stored).length d₁
    let log' := reopened options header frames log.device
    have hframes : RedoLog.frames.runOn log = (.ok (frames, log.device.size), log) :=
      runOn_frames_chained hread hchained hkept (congrArg List.length hkept).symm
    -- What was kept is opened again as it is.
    have hagain : openOn options log.device = (.ok log', log.device) :=
      openOn_chained hread hlength hsalt hchained hkept
    have hend : log'.appendOffset = log'.device.size := by
      show (header.contents frames).length = log.device.bytes.length
      rw [hkept, LogHeader.contents, List.length_append, List.length_append, hchained.length_eq]
    have hframes' : RedoLog.frames.runOn log' = (.ok (frames, log.device.size), log') :=
      runOn_frames_chained hread hchained hkept hend
    refine ⟨rfl, hsalt, frames, stored, hframes, hkept, hchained, fun hlong => ?_,
      hchained.exists_isSequence, log', hagain, hframes', rfl, rfl⟩
    -- Only a device without room for a header has bytes that were not there.
    obtain rfl := hsame hlong
    exact List.take_prefix _ _

/-- Behind the first frame, whose spare bytes are not zero, a number is left out, and a byte stands
behind the last frame. -/
theorem openOn_any_bytes_of_gap :
    let header : LogHeader := ⟨7, ⟨4⟩⟩
    let first : Frame := ⟨⟨6⟩, ⟨1⟩, [1, 2]⟩
    let options := LogOptions.basic 7 .never
    let stored := header.encode ++ first.encodeWith 7 [1, 2, 3, 4]
    let bs := stored ++ Frame.encode ⟨⟨8⟩, ⟨2⟩, [3]⟩ 7 ++ [0]
    ∃ log, openOn options (.ofBytes bs) = (.ok log, log.device) ∧ log.device.bytes = stored ∧
      log.nextLsn = ⟨7⟩ ∧
      ∃ log', openOn options log.device = (.ok log', log.device) ∧ log'.nextLsn = ⟨7⟩ ∧
        log'.stats.truncatedBytes = 0 := by
  intro header first options stored bs
  -- The log is computed once, and the theorem says how it is opened again.
  have hopen : (openOn options (.ofBytes bs)).1.toOption.map
      (fun log => (log.device.bytes, log.nextLsn)) = some (stored, ⟨7⟩) := by decide +kernel
  obtain ⟨-, hok⟩ := openOn_any_bytes options bs
  rcases h : openOn options (.ofBytes bs) with ⟨err | log, d⟩
  · rw [h] at hopen
    cases hopen
  · obtain ⟨rfl, -, frames, stored', -, -, -, -, -, log', hagain, -, hnext, hcut⟩ := hok log d h
    rw [h] at hopen
    obtain ⟨hbytes, hlsn⟩ := Prod.mk.inj (Option.some.inj hopen)
    exact ⟨log, rfl, hbytes, hlsn, log', hagain, hnext.trans hlsn, hcut⟩

end RedoLog

end TxnStore
