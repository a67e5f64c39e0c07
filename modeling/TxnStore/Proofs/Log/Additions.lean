import TxnStore.Proofs.Log.Salvage

/-!
# What an append adds

Whatever its device does, an append adds the bytes of one frame to what a log holds, or it adds
nothing. As long as the numbers of the frames are not used up, reading the log then gives the frames
that it gave before and the new one behind them.
-/

namespace TxnStore

open TxnStore.Action

/-! ## One more frame -/

/-- A frame behind chained frames is chained to them if it has the number that is expected there. -/
theorem Frame.Chained.concat {header : LogHeader} {expected : Option Lsn} {frames : List Frame}
    {bs : List UInt8} (h : Chained header expected frames bs) {f : Frame}
    (hshort : f.payload.length < UInt32.size) (hstarts : header.startLsn.val ≤ f.lsn.val)
    (hexpected : ((frames.getLast?.map fun g => g.lsn.next).or expected).all (· == f.lsn) = true) :
    Chained header expected (frames ++ [f]) (bs ++ f.encode header.salt) := by
  -- By induction on the frames that lie before the new one.
  induction h with
  | nil expected =>
    have hlast : Chained header expected [f] (f.encodeWith header.salt [0, 0, 0, 0] ++ []) :=
      .cons rfl hshort hstarts hexpected (.nil _)
    rwa [List.append_nil] at hlast
  | @cons _ g rest _ _ hspare hshort₀ hstarts₀ hexpected₀ _ ih =>
    rw [List.append_assoc]
    refine .cons hspare hshort₀ hstarts₀ hexpected₀ (ih ?_)
    -- The number is that after the last frame, which is the first one if it stands alone.
    cases rest with
    | nil => exact hexpected
    | cons g' rest =>
      rw [List.getLast?_cons_cons] at hexpected
      cases hlast : (g' :: rest).getLast? with
      | none => cases List.getLast?_eq_none_iff.mp hlast
      | some last =>
        rw [hlast] at hexpected
        exact hexpected

namespace RedoLog

variable {log log' : RedoLog} {f : Option Frame}

/-- The bytes of a log up to the end of its last frame. -/
def held (log : RedoLog) : List UInt8 := log.device.bytes.take log.appendOffset

/-- What an append may leave of a log: the bytes that it held and, if a frame was added, those of
the frame behind them. The frame has the number that came next. -/
structure Gains (log log' : RedoLog) (f : Option Frame) : Prop where
  header : log'.header = log.header
  held : log'.held = log.held ++ Frame.encodeAll log.header.salt f.toList
  lsn : ∀ g ∈ f, g.lsn = log.nextLsn
  short : ∀ g ∈ f, g.payload.length < UInt32.size
  nextLsn : log'.nextLsn = if f.isSome then log.nextLsn.next else log.nextLsn

/-- Nothing is added to a log whose frames, header and numbers are as before. -/
theorem Gains.of_same (hheader : log'.header = log.header) (hheld : log'.held = log.held)
    (hnext : log'.nextLsn = log.nextLsn) : log.Gains log' none where
  header := hheader
  held := by simpa [Frame.encodeAll] using hheld
  lsn := fun _ hg => by cases hg
  short := fun _ hg => by cases hg
  nextLsn := hnext

/-- Which calls of its device fail is of no account for what a log gains. -/
theorem Gains.of_withFaults {faults : DeviceFaults} (h : (log.withFaults faults).Gains log' f) :
    log.Gains log' f := ⟨h.header, h.held, h.lsn, h.short, h.nextLsn⟩

theorem held_discarded (h : log.IsTrimmed) (data : List UInt8) :
    (log.discarded data).held = log.held := by
  have hoffset := log.appendOffset_discarded data
  unfold held
  rw [hoffset]
  unfold discarded
  split
  · exact List.take_append_of_le_length h.inside
  · rfl

theorem held_appended (h : log.IsTrimmed) (hpoisoned : log.poisoned = false) (bs : List UInt8) :
    ((log.extended bs).appended bs.length).held = log.held ++ bs := by
  have hend : log.appendOffset = log.device.bytes.length := h.trimmed hpoisoned
  show (log.device.bytes ++ bs).take (log.appendOffset + bs.length) = _
  rw [held, hend, List.take_length, ← List.length_append, List.take_length]

/-- A refused append adds nothing, and one that is acknowledged adds its frame. -/
theorem IsTrimmed.gains (h : log.IsTrimmed) {txn : TxnId} {payload : List UInt8}
    {a : Except StoreError Lsn} (hrun : (RedoLog.append txn payload).runOn log = (a, log')) :
    ((∃ err, a = .error err) ∧ log.Gains log' none) ∨
      (a = .ok log.nextLsn ∧ log.Gains log' (some (log.frameToAppend txn payload))) := by
  -- The append is refused, it fails on the way, or it is acknowledged.
  rcases append_cases log txn payload h.trimmed with
    ⟨err, hdone⟩ | ⟨-, err, data, hdone⟩ | ⟨hpoisoned, hshort, hdone⟩
  · rw [hrun] at hdone
    cases hdone
    exact .inl ⟨⟨err, rfl⟩, .of_same rfl rfl rfl⟩
  · -- A frame that was given up leaves at most bytes behind what is held.
    rw [hrun] at hdone
    cases hdone
    exact .inl ⟨⟨err, rfl⟩,
      .of_same (header_discarded log data) (held_discarded h data) (nextLsn_discarded log data)⟩
  · -- The bytes of the frame come right behind what is held.
    rw [hrun] at hdone
    cases hdone
    refine .inr ⟨rfl, rfl, ?_, ?_, ?_, rfl⟩
    · rw [held_appended h hpoisoned]
      simp [Frame.encodeAll]
    · rintro g ⟨⟩
      rfl
    · rintro g ⟨⟩
      exact hshort

/-! ## The frames that are read -/

/-- What a log holds is a head and the given frames, chained one behind the other, and the next
frame gets the number after them. -/
structure Lists (log : RedoLog) (frames : List Frame) : Prop where
  held : ∃ head stored, head.length = LogHeader.size ∧ log.held = head ++ stored ∧
    Frame.Chained log.header none frames stored
  nextLsn : log.nextLsn = lsnAfter log.header frames

/-- The numbers of a log have not started over, and they do not for so many frames more. -/
structure HasNumbers (log : RedoLog) (n : Nat) : Prop where
  starts : log.header.startLsn.val ≤ log.nextLsn.val
  left : log.nextLsn.val.toNat + n < UInt64.size

theorem HasNumbers.gains {n : Nat} (h : log.HasNumbers (n + if f.isSome then 1 else 0))
    (hgains : log.Gains log' f) : log'.HasNumbers n := by
  obtain ⟨hstarts, hleft⟩ := h
  have hnext := hgains.nextLsn
  -- Without a frame the next number stays, and with one it moves on by one.
  cases f with
  | none =>
    have hsame : log'.nextLsn = log.nextLsn := hnext
    exact ⟨by rw [hgains.header, hsame]; exact hstarts, by rw [hsame]; exact hleft⟩
  | some g =>
    have hleft : log.nextLsn.val.toNat + (n + 1) < UInt64.size := hleft
    have hlsn : log'.nextLsn.val.toNat = log.nextLsn.val.toNat + 1 := by
      rw [show log'.nextLsn = log.nextLsn.next from hnext, IsSequence.toNat_next (by omega)]
    refine ⟨?_, by omega⟩
    rw [UInt64.le_iff_toNat_le] at hstarts ⊢
    rw [hgains.header]
    omega

theorem HasNumbers.le {m n : Nat} (h : log.HasNumbers n) (hle : m ≤ n) : log.HasNumbers m := by
  obtain ⟨hstarts, hleft⟩ := h
  exact ⟨hstarts, by omega⟩

theorem HasNumbers.withFaults {n : Nat} (h : log.HasNumbers n) (faults : DeviceFaults) :
    (log.withFaults faults).HasNumbers n := ⟨h.starts, h.left⟩

namespace Lists

variable {frames : List Frame}

theorem withFaults (h : log.Lists frames) (faults : DeviceFaults) :
    (log.withFaults faults).Lists frames := ⟨h.held, h.nextLsn⟩

/-- A frame that is added is listed behind the others, unless the numbers have started over. -/
theorem gains (h : log.Lists frames) (hgains : log.Gains log' f)
    (hstarts : f.isSome = true → log.header.startLsn.val ≤ log.nextLsn.val) :
    log'.Lists (frames ++ f.toList) := by
  obtain ⟨⟨head, stored, hhead, hheld, hchained⟩, hnext⟩ := h
  have hheld' := hgains.held
  have hnext' := hgains.nextLsn
  rw [hheld] at hheld'
  -- Nothing was added, and so the same bytes hold the same frames.
  cases f with
  | none =>
    rw [Option.toList_none, List.append_nil]
    refine ⟨⟨head, stored, hhead, ?_, hgains.header ▸ hchained⟩, ?_⟩
    · simpa [Frame.encodeAll] using hheld'
    · rw [hgains.header]
      exact hnext'.trans hnext
  -- The frame continues the chain, as it has the number that was next.
  | some g =>
    have hlsn := hgains.lsn g rfl
    refine ⟨⟨head, stored ++ g.encode log.header.salt, hhead, ?_, ?_⟩, ?_⟩
    · simpa [Frame.encodeAll] using hheld'
    · rw [hgains.header]
      apply hchained.concat (hgains.short g rfl)
      · rw [hlsn]
        exact hstarts rfl
      · rw [hlsn, hnext, lsnAfter]
        cases frames.getLast? <;> simp
    · rw [hgains.header, lsnAfter, Option.toList_some, List.getLast?_concat]
      show log'.nextLsn = g.lsn.next
      rw [hlsn]
      exact hnext'

/-- A log gives the frames that it lists. -/
theorem frames_eq (h : log.Lists frames) (htrimmed : log.IsTrimmed)
    (hread : log.device.faults.read = false) :
    RedoLog.frames.runOn log = (.ok (frames, log.appendOffset), log) := by
  obtain ⟨⟨head, stored, hhead, hheld, hchained⟩, -⟩ := h
  -- Whatever lies behind the held bytes is out of the reach of the scan.
  have hbytes : log.device.bytes = head ++ stored ++ log.device.bytes.drop log.appendOffset := by
    rw [← hheld, RedoLog.held, List.take_append_drop]
  have hend : (head ++ stored).length = log.appendOffset := by
    rw [← hheld, RedoLog.held, List.length_take]
    exact Nat.min_eq_left htrimmed.inside
  obtain ⟨s, hframes, hvalid⟩ := LogScan.runOn_frames_chained hread hhead hchained hbytes
  rw [hend] at hframes hvalid
  rw [runOn_frames_of_scan hframes, hvalid]

/-- What lies before the end that is cut stays. -/
theorem take_of_runOn_cutTail {d d' : Device} {n k : Nat} (hinside : n ≤ d.size)
    (h : (cutTail n).runOn d = (.ok k, d')) : d'.bytes.take n = d.bytes.take n := by
  obtain ⟨size, d₁, hlength, h⟩ := exists_of_runOn_bind h
  obtain ⟨rfl, rfl⟩ := Device.eq_of_runOn_length hlength
  -- Either something is cut off behind the end, or nothing is.
  split at h
  · obtain ⟨_, d₂, htruncate, h⟩ := exists_of_runOn_bind h
    cases h
    rw [Device.eq_of_runOn_truncate htruncate]
    show (Device.resize d₁.bytes n).take n = d₁.bytes.take n
    rw [Device.resize, List.take_append_of_le_length, List.take_take, Nat.min_self]
    rw [List.length_take]
    exact Nat.le_min.mpr ⟨Nat.le_refl n, hinside⟩
  · cases h
    rfl

/-- Whatever device a log was opened on, it lists the frames that were found there. -/
theorem exists_of_openOn {options : LogOptions} {d d' : Device}
    (h : openOn options d = (.ok log, d')) : ∃ frames, log.Lists frames := by
  rw [openOn] at h
  split at h
  · next make d₁ hopen =>
    cases h
    -- Opening loads the header, scans for frames and cuts off what is behind them.
    obtain ⟨header, d₂, hload, hopen⟩ := exists_of_runOn_bind hopen
    obtain ⟨size, d₃, hlength, hopen⟩ := exists_of_runOn_bind hopen
    obtain ⟨rfl, rfl⟩ := Device.eq_of_runOn_length hlength
    obtain ⟨⟨frames, s⟩, d₄, hframes, hopen⟩ := exists_of_runOn_bind hopen
    obtain ⟨truncated, d₅, hcut, hopen⟩ := exists_of_runOn_bind hopen
    cases hopen
    have hroom := size_of_runOn_loadHeader hload
    obtain ⟨rfl, hvalid⟩ := LogScan.validUpTo_of_runOn_collect (Nat.le_refl _) (Nat.le_refl _)
      hroom hframes
    obtain ⟨-, stored, rest, hchained, hstored, hend⟩ := LogScan.collect_cases rfl hframes
    have hhead : (d₄.bytes.take LogHeader.size).length = LogHeader.size := by
      rw [List.length_take]
      exact Nat.min_eq_left hroom
    refine ⟨frames, ⟨d₄.bytes.take LogHeader.size, stored, hhead, ?_, hchained⟩, rfl⟩
    show d'.bytes.take s.validUpTo = _
    rw [take_of_runOn_cutTail hvalid hcut, hend]
    -- The frames were found right behind the header.
    have hfound : d₄.bytes.drop LogHeader.size = stored ++ rest := hstored
    show d₄.bytes.take (LogHeader.size + stored.length) = _
    rw [List.take_add, hfound, List.take_left]
  · cases h

end Lists

end RedoLog

end TxnStore
