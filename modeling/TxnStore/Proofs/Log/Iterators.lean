import TxnStore.Proofs.Log.Additions
import TxnStore.Proofs.Log.FailedResets

/-!
# Reading a log while it grows

A scan keeps the header and the end that the log had when the scan began. Appends only change what
lies behind that end, whether they succeed, take back what they stored or poison the log. So the
scan goes on as if nothing was appended: it gives the frames that the log had when it began, one
after the other, and then none for good.

These are the frames that the log had acknowledged, unless a reset failed that asked for a later
number: such a reset leaves a header in memory that admits none of them.
-/

namespace TxnStore

open TxnStore.Action

/-! ## Bytes before the limit of a scan -/

/-- Only the bytes before its limit are of account for a scan. -/
theorem LogScan.StandsBefore.of_take {d d' : Device} {s : LogScan} {frames : List Frame}
    (h : s.StandsBefore d frames 0) (hsize : s.limit ≤ d'.size)
    (hsame : d'.bytes.take s.limit = d.bytes.take s.limit) : s.StandsBefore d' frames 0 := by
  obtain ⟨hinside, ⟨stored, rest, hchained, hbytes⟩, hlimit, hvalid⟩ := h
  have hend : s.limit = s.offset + stored.length := by rw [hlimit, hchained.length_eq, Nat.add_zero]
  have hstored : (d'.bytes.drop s.offset).take stored.length = stored := by
    rw [List.take_drop, ← hend, hsame, hend, ← List.take_drop, hbytes, List.take_left]
  have hsplit := List.take_append_drop stored.length (d'.bytes.drop s.offset)
  rw [hstored] at hsplit
  exact ⟨by omega, ⟨stored, _, hchained, hsplit.symm⟩, hlimit, hvalid⟩

/-- A scan at its limit has nowhere to go. -/
theorem LogScan.stop_of_end {s : LogScan} (h : s.limit = s.offset) : s.stop = s := by
  obtain ⟨header, offset, limit, expected, validUpTo⟩ := s
  obtain rfl : limit = offset := h
  rfl

namespace RedoLog

variable {log log' : RedoLog} {f : Option Frame}

theorem IsTrimmed.length_held (h : log.IsTrimmed) : log.held.length = log.appendOffset := by
  rw [held, List.length_take]
  exact Nat.min_eq_left h.inside

/-- What a log gains lies behind what it held. -/
theorem Gains.keeps (h : log.Gains log' f) (htrimmed : log.IsTrimmed) (htrimmed' : log'.IsTrimmed) :
    log.appendOffset ≤ log'.appendOffset ∧ ∀ n ≤ log.appendOffset,
      log'.device.bytes.take n = log.device.bytes.take n := by
  have hlength := congrArg List.length h.held
  rw [List.length_append, htrimmed.length_held, htrimmed'.length_held] at hlength
  refine ⟨by omega, fun n hn => ?_⟩
  have htake : log'.held.take n = log.held.take n := by
    rw [h.held, List.take_append_of_le_length (by rw [htrimmed.length_held]; exact hn)]
  rwa [RedoLog.held, RedoLog.held, List.take_take, List.take_take, Nat.min_eq_left hn,
    Nat.min_eq_left (by omega)] at htake

theorem IsTrimmed.flush (h : log.IsTrimmed) : (RedoLog.flush.runOn log).2.IsTrimmed := by
  rw [runOn_flush]
  split
  · exact h
  · exact ⟨h.inside, h.trimmed⟩

theorem gains_flush (log : RedoLog) : log.Gains (RedoLog.flush.runOn log).2 none := by
  rw [runOn_flush]
  split
  · exact .of_same rfl rfl rfl
  · exact .of_same rfl rfl rfl

theorem isTrimmed_restarted (log : RedoLog) (startLsn : Lsn) :
    (log.restarted startLsn).IsTrimmed := by
  have hsize : LogHeader.size = (log.restarted startLsn).device.size :=
    (LogHeader.length_encode _).symm
  exact ⟨Nat.le_of_eq hsize, fun _ => hsize⟩

theorem held_restarted (log : RedoLog) (startLsn : Lsn) :
    (log.restarted startLsn).held = (log.resetHeader startLsn).encode :=
  List.take_of_length_le (Nat.le_of_eq (LogHeader.length_encode _))

end RedoLog

/-! ## The frames of a ledger -/

namespace Frame.Chained

variable {header header' : LogHeader} {expected : Option Lsn} {frames : List Frame}
  {bs : List UInt8}

/-- Frames are found under another header too, if it has the salt and does not start later. -/
theorem under (h : Chained header expected frames bs) (hsalt : header'.salt = header.salt)
    (hstarts : ∀ f ∈ frames, header'.startLsn.val ≤ f.lsn.val) :
    Chained header' expected frames bs := by
  induction h with
  | nil expected => exact .nil expected
  | cons hspare hshort _ hexpected _ ih =>
    obtain ⟨hfirst, hrest⟩ := List.forall_mem_cons.mp hstarts
    rw [← hsalt]
    exact .cons hspare hshort hfirst hexpected (ih hrest)

end Frame.Chained

namespace Ledger

variable {b : Ledger} {log log' : RedoLog} {f : Option Frame}

/-- The acknowledged frames lie one behind the other up to the end of the log, and neither the
header nor the first number of the ledger asks for later ones. -/
structure IsListed (b : Ledger) : Prop where
  trimmed : b.log.IsTrimmed
  held : ∃ head stored, head.length = LogHeader.size ∧ b.log.held = head ++ stored ∧
    Frame.Chained b.log.header none b.acknowledged stored
  follows : ∀ f ∈ b.acknowledged.getLast?, f.lsn.next = b.log.nextLsn
  header : b.log.header.startLsn.val ≤ b.log.nextLsn.val
  startLsn : b.startLsn.val ≤ b.log.nextLsn.val
  numbered : ∀ f ∈ b.acknowledged, b.startLsn.val ≤ f.lsn.val

namespace IsListed

theorem withFaults (h : b.IsListed) (faults : DeviceFaults) :
    { b with log := b.log.withFaults faults }.IsListed :=
  ⟨h.trimmed.withFaults faults, h.held, h.follows, h.header, h.startLsn, h.numbered⟩

/-- The end of the log is the end of its frames. -/
theorem appendOffset_eq (h : b.IsListed) :
    b.log.appendOffset =
      LogHeader.size + (Frame.encodeAll b.log.header.salt b.acknowledged).length := by
  obtain ⟨head, stored, hhead, hheld, hchained⟩ := h.held
  rw [← h.trimmed.length_held, hheld, List.length_append, hhead, hchained.length_eq]

/-- A log that was opened lists what it gives, as long as its numbers have not started over. -/
theorem opened {options : LogOptions} {d d' : Device} {found : List Frame} {offset : Nat}
    {first : Lsn} (hopen : RedoLog.openOn options d = (.ok log, d'))
    (hstarts : log.header.startLsn.val ≤ log.nextLsn.val)
    (hfound : (RedoLog.frames.runOn (log.withFaults .none)).1 = .ok (found, offset))
    (hfirst : first.val ≤ log.nextLsn.val) (hnumbered : ∀ f ∈ found, first.val ≤ f.lsn.val) :
    (Ledger.mk log first found).IsListed := by
  have htrimmed := RedoLog.isTrimmed_of_openOn hopen
  obtain ⟨frames, hlists⟩ := RedoLog.Lists.exists_of_openOn hopen
  rw [(hlists.withFaults .none).frames_eq (htrimmed.withFaults .none) rfl] at hfound
  obtain rfl : frames = found := congrArg Prod.fst (Except.ok.inj hfound)
  refine ⟨htrimmed, hlists.held, fun f hf => ?_, hstarts, hfirst, hnumbered⟩
  show f.lsn.next = log.nextLsn
  rw [hlists.nextLsn, RedoLog.lsnAfter, Option.mem_def.mp hf]

/-- A frame that is added is listed behind the others. -/
theorem gains (h : b.IsListed) (hgains : b.log.Gains log' f) (htrimmed : log'.IsTrimmed)
    (hleft : f.isSome = true → b.log.nextLsn.val.toNat + 1 < UInt64.size) :
    (Ledger.mk log' b.startLsn (b.acknowledged ++ f.toList)).IsListed := by
  obtain ⟨head, stored, hhead, hheld, hchained⟩ := h.held
  have hheld' := hgains.held
  have hnext := hgains.nextLsn
  rw [hheld] at hheld'
  -- Nothing was added, or the frame with the next number was.
  cases f with
  | none =>
    rw [Option.toList_none, List.append_nil]
    refine ⟨htrimmed, ⟨head, stored, hhead, ?_, hgains.header ▸ hchained⟩, ?_, ?_, ?_, h.numbered⟩
    · simpa [Frame.encodeAll] using hheld'
    · rw [show log'.nextLsn = b.log.nextLsn from hnext]
      exact h.follows
    · rw [show log'.nextLsn = b.log.nextLsn from hnext, hgains.header]
      exact h.header
    · rw [show log'.nextLsn = b.log.nextLsn from hnext]
      exact h.startLsn
  -- The frame is chained behind the acknowledged ones.
  | some g =>
    have hlsn := hgains.lsn g rfl
    have hlater : b.log.nextLsn.val ≤ log'.nextLsn.val := by
      rw [show log'.nextLsn = b.log.nextLsn.next from hnext, UInt64.le_iff_toNat_le,
        IsSequence.toNat_next (hleft rfl)]
      omega
    refine ⟨htrimmed, ⟨head, stored ++ g.encode b.log.header.salt, hhead, ?_, ?_⟩, ?_, ?_, ?_, ?_⟩
    · simpa [Frame.encodeAll] using hheld'
    · rw [hgains.header]
      apply hchained.concat (hgains.short g rfl)
      · rw [hlsn]
        exact h.header
      · rw [hlsn]
        cases hlast : b.acknowledged.getLast? with
        | none => rfl
        | some last => simp [h.follows last hlast]
    · rw [Option.toList_some, List.getLast?_concat]
      rintro _ ⟨⟩
      rw [hlsn]
      exact hnext.symm
    · rw [hgains.header]
      exact UInt64.le_trans h.header hlater
    · exact UInt64.le_trans h.startLsn hlater
    · intro g' hg'
      rcases List.mem_append.mp hg' with hold | hnew
      · exact h.numbered g' hold
      · rw [List.mem_singleton.mp hnew, hlsn]
        exact h.startLsn

/-- A failed reset that asks for no later number and cuts nothing off leaves the frames listed. -/
theorem reset_failed (h : b.IsListed) {startLsn : Lsn} {err : StoreError}
    (hreset : (RedoLog.reset startLsn).runOn b.log = (.error err, log'))
    (hstarts : startLsn.val ≤ b.startLsn.val) (hkept : b.log.appendOffset ≤ log'.device.size) :
    { b with log := log' }.IsListed := by
  -- The held bytes are a head and the frames behind it.
  obtain ⟨head, stored, hhead, hheld, hchained⟩ := h.held
  have hoffset : b.log.appendOffset = LogHeader.size + stored.length := by
    rw [← h.trimmed.length_held, hheld, List.length_append, hhead]
  have hsize : LogHeader.size ≤ b.log.device.size :=
    Nat.le_trans (by omega) h.trimmed.inside
  -- A reset that goes through is no failed one.
  rcases RedoLog.reset_cases startLsn hsize with hok | ⟨err', device, hrun, hdevice⟩
  · rw [hok] at hreset
    cases hreset
  rw [hrun] at hreset
  cases hreset
  have hunder : Frame.Chained (b.log.resetHeader startLsn) none b.acknowledged stored :=
    hchained.under rfl fun f hf => UInt64.le_trans hstarts (h.numbered f hf)
  have hfits : b.log.appendOffset ≤ device.size := hkept
  -- Only the head is another one, also where nothing lies behind it.
  obtain ⟨hend, head', hhead', hheld'⟩ :
      (b.log.poisoned = false → b.log.appendOffset = device.size) ∧
        ∃ head', head'.length = LogHeader.size ∧
          device.bytes.take b.log.appendOffset = head' ++ stored := by
    -- The head was written over, or the device was cut right behind it.
    rcases hdevice with ⟨head', hlength, hbytes⟩ | hbytes
    · have hsame : device.size = b.log.device.size := by
        have hsizes := congrArg List.length hbytes
        rw [List.length_append, List.length_drop, hlength] at hsizes
        simp only [Device.size] at hsize ⊢
        omega
      refine ⟨fun hpoisoned => hsame ▸ h.trimmed.trimmed hpoisoned, head', hlength, ?_⟩
      have hstored : (b.log.device.bytes.drop LogHeader.size).take stored.length = stored := by
        rw [List.take_drop, ← hoffset, show b.log.device.bytes.take _ = _ from hheld,
          List.drop_left' hhead]
      rw [hbytes, hoffset, ← hlength, List.take_length_add_append, hlength, hstored]
    · -- With nothing behind the head, no frame can have been acknowledged.
      have hsmall : device.size = LogHeader.size := by
        rw [Device.size, hbytes, LogHeader.length_encode]
      have hnone : stored = [] := List.eq_nil_of_length_eq_zero (by omega)
      have hall : b.log.appendOffset = device.size := by
        rw [hoffset, hnone, hsmall]
        rfl
      refine ⟨fun _ => hall, device.bytes, hsmall, ?_⟩
      rw [hnone, List.append_nil, hall]
      exact List.take_length
  exact ⟨⟨hfits, hend⟩, ⟨head', stored, hhead', hheld', hunder⟩, h.follows,
    UInt64.le_trans hstarts h.startLsn, h.startLsn, h.numbered⟩

/-- The frames that a ledger has acknowledged stay listed in every call. -/
theorem call (h : b.IsListed) (faults : DeviceFaults) {c : LogCall} (hc : b.Tolerates faults c) :
    (b.call faults c).IsListed := by
  have hlog := h.withFaults faults
  cases c with
  -- A refused or failed append adds nothing to what is held.
  | append txn payload =>
    have htrimmed := hlog.trimmed.append txn payload
    rcases hrun : (RedoLog.append txn payload).runOn (b.log.withFaults faults) with ⟨a, log'⟩
    rw [hrun] at htrimmed
    rcases hlog.trimmed.gains hrun with ⟨⟨err, rfl⟩, hgains⟩ | ⟨rfl, hgains⟩
    · have hkept := hlog.gains hgains htrimmed fun hnone => by cases hnone
      rw [Option.toList_none, List.append_nil] at hkept
      simpa only [Ledger.call, hrun] using hkept
    · have hleft := hc _ (congrArg Prod.fst hrun)
      simp only [Ledger.call, hrun]
      exact hlog.gains hgains htrimmed fun _ => hleft
  -- A flush leaves the held bytes alone.
  | flush =>
    have hkept := hlog.gains (RedoLog.gains_flush _) hlog.trimmed.flush fun hnone => by cases hnone
    rwa [Option.toList_none, List.append_nil] at hkept
  | reset startLsn =>
    simp only [Tolerates] at hc
    rcases hrun : (RedoLog.reset startLsn).runOn (b.log.withFaults faults) with ⟨err | u, log'⟩
    · rw [hrun] at hc
      simpa only [Ledger.call, hrun] using hlog.reset_failed hrun hc.1 hc.2
    · -- A log that starts over holds no frames, and its numbers start anew.
      simp only [Ledger.call, hrun]
      rw [RedoLog.eq_of_runOn_reset hrun]
      have hnone : ∀ f ∈ ([] : List Frame), startLsn.val ≤ f.lsn.val := fun _ hf =>
        absurd hf List.not_mem_nil
      have hheld := RedoLog.held_restarted (b.log.withFaults faults) startLsn
      rw [← List.append_nil (LogHeader.encode _)] at hheld
      exact ⟨RedoLog.isTrimmed_restarted _ startLsn,
        ⟨_, [], LogHeader.length_encode _, hheld, .nil none⟩, (fun _ hf => by cases hf),
        UInt64.le_refl _, UInt64.le_refl _, hnone⟩

theorem run (h : b.IsListed) {calls : List (DeviceFaults × LogCall)}
    (hcalls : b.ToleratesAll calls) : (b.run calls).IsListed := by
  induction calls generalizing b with
  | nil => exact h
  | cons c rest ih => exact ih (h.call c.1 hcalls.1) hcalls.2

end IsListed

/-- Where the first so many frames of a ledger end. -/
def endOf (b : Ledger) (k : Nat) : Nat :=
  LogHeader.size + (Frame.encodeAll b.log.header.salt (b.acknowledged.take k)).length

/-- What a scan of the log answers to the call after `k` others: the frame at this place if there is
one, and where it ends. -/
def answerAt (b : Ledger) (k : Nat) : Except StoreError (Option Frame) × Nat :=
  (.ok b.acknowledged[k]?, b.endOf (k + 1))

theorem endOf_add_rest (b : Ledger) (k : Nat) :
    b.endOf k + (Frame.encodeAll b.log.header.salt (b.acknowledged.drop k)).length =
      LogHeader.size + (Frame.encodeAll b.log.header.salt b.acknowledged).length := by
  have hsplit : Frame.encodeAll b.log.header.salt b.acknowledged =
      Frame.encodeAll b.log.header.salt (b.acknowledged.take k) ++
        Frame.encodeAll b.log.header.salt (b.acknowledged.drop k) := by
    rw [Frame.encodeAll, Frame.encodeAll, Frame.encodeAll, ← List.flatMap_append,
      List.take_append_drop]
  rw [endOf, hsplit, List.length_append, Nat.add_assoc]

theorem endOf_mono (b : Ledger) {i j : Nat} (h : i ≤ j) : b.endOf i ≤ b.endOf j := by
  obtain ⟨rest, hrest⟩ : b.acknowledged.take i <+: b.acknowledged.take j :=
    List.take_prefix_take_left h
  have hsplit : Frame.encodeAll b.log.header.salt (b.acknowledged.take j) =
      Frame.encodeAll b.log.header.salt (b.acknowledged.take i) ++
        Frame.encodeAll b.log.header.salt rest := by
    rw [Frame.encodeAll, Frame.encodeAll, Frame.encodeAll, ← List.flatMap_append, hrest]
  rw [endOf, endOf, hsplit, List.length_append]
  omega

/-- All the frames end where the log does. -/
theorem IsListed.endOf_eq (h : b.IsListed) {k : Nat} (hk : b.acknowledged.length ≤ k) :
    b.endOf k = b.log.appendOffset := by
  rw [endOf, List.take_of_length_le hk, h.appendOffset_eq]

end Ledger

/-! ## Scans between appends -/

/-- A ledger, a scan over its log, and what the scan has answered so far, each time with where the
last frame that was read ends. -/
structure Iteration where
  ledger : Ledger
  scan : LogScan
  answers : List (Except StoreError (Option Frame) × Nat)

/-- The next frame is asked for, or the log goes on, while calls of the device may fail. -/
inductive IterationStep where
  | next (faults : DeviceFaults)
  | append (faults : DeviceFaults) (txn : TxnId) (payload : List UInt8)
  | flush (faults : DeviceFaults)
deriving DecidableEq, Repr

def IterationStep.isNext : IterationStep → Bool
  | next _ => true
  | _ => false

/-- A scan over the log as it is now. -/
def Ledger.iterate (b : Ledger) : Iteration := ⟨b, b.log.scan, []⟩

namespace Iteration

def step (it : Iteration) : IterationStep → Iteration
  | .next faults =>
    match (RedoLog.onDevice it.scan.next).runOn (it.ledger.log.withFaults faults) with
    | (.ok (frame, scan), log) =>
      ⟨{ it.ledger with log }, scan, it.answers ++ [(.ok frame, scan.validUpTo)]⟩
    | (.error err, log) =>
      ⟨{ it.ledger with log }, it.scan, it.answers ++ [(.error err, it.scan.validUpTo)]⟩
  | .append faults txn payload => { it with ledger := it.ledger.call faults (.append txn payload) }
  | .flush faults => { it with ledger := it.ledger.call faults .flush }

def run (it : Iteration) (steps : List IterationStep) : Iteration := steps.foldl step it

/-- The scan has given so many answers as the frames of the ledger ask for, and stands before the
other frames, wherever the log has got meanwhile. -/
structure IsAt (b : Ledger) (k : Nat) (it : Iteration) : Prop where
  trimmed : it.ledger.log.IsTrimmed
  limit : it.scan.limit = b.log.appendOffset
  header : it.scan.header = b.log.header
  inside : b.log.appendOffset ≤ it.ledger.log.appendOffset
  before : it.scan.StandsBefore it.ledger.log.device (b.acknowledged.drop k) 0
  answers : it.answers = (List.range k).map b.answerAt

namespace IsAt

variable {b : Ledger} {k : Nat} {it : Iteration}

theorem iterate (h : b.IsListed) : b.iterate.IsAt b 0 := by
  obtain ⟨head, stored, hhead, hheld, hchained⟩ := h.held
  have hbytes : b.log.device.bytes =
      head ++ stored ++ b.log.device.bytes.drop b.log.appendOffset := by
    rw [← hheld, RedoLog.held, List.take_append_drop]
  have hbefore := LogScan.standsBefore_chained hhead hchained hbytes 0
  rw [← hheld, h.trimmed.length_held] at hbefore
  exact ⟨h.trimmed, rfl, rfl, Nat.le_refl _, hbefore, rfl⟩

/-- A log that goes on leaves a scan where it is. -/
theorem gains (h : it.IsAt b k) {ledger : Ledger} {f : Option Frame} {faults : DeviceFaults}
    (hgains : (it.ledger.log.withFaults faults).Gains ledger.log f)
    (htrimmed : ledger.log.IsTrimmed) : { it with ledger }.IsAt b k := by
  obtain ⟨hmore, hkept⟩ := hgains.keeps (h.trimmed.withFaults faults) htrimmed
  have hinside : it.scan.limit ≤ it.ledger.log.appendOffset := h.limit ▸ h.inside
  refine ⟨htrimmed, h.limit, h.header, Nat.le_trans h.inside hmore, ?_, h.answers⟩
  exact h.before.of_take (Nat.le_trans hinside (Nat.le_trans hmore htrimmed.inside))
    (hkept _ hinside)

/-- The scan answers with the next frame of the ledger, or stays behind the last one. -/
theorem next (hb : b.IsListed) (h : it.IsAt b k) {faults : DeviceFaults}
    (hread : faults.read = false) : (it.step (.next faults)).IsAt b (k + 1) := by
  -- The scan stands before the frames that it has not yet given.
  let d := (it.ledger.log.withFaults faults).device
  have hbefore : it.scan.StandsBefore d (b.acknowledged.drop k) 0 :=
    h.before.of_take (Nat.le_trans (h.limit ▸ h.inside) h.trimmed.inside) rfl
  have hlater : (b.acknowledged.drop k).drop 1 = b.acknowledged.drop (k + 1) := List.drop_drop
  -- Either way the scan then stands before the other frames, and has got to the end of this one.
  obtain ⟨s, hnext, hrest, hlimit, hheader⟩ : ∃ s,
      it.scan.next.runOn d = (.ok (b.acknowledged[k]?, s), d) ∧
        s.StandsBefore d (b.acknowledged.drop (k + 1)) 0 ∧ s.limit = it.scan.limit ∧
        s.header = it.scan.header := by
    rw [← hlater]
    cases hdrop : b.acknowledged.drop k with
    -- Behind the last frame the iterator stays where it is.
    | nil =>
      rw [hdrop] at hbefore
      have hstop : it.scan.stop = it.scan := LogScan.stop_of_end hbefore.limit
      have hnone : b.acknowledged[k]? = none :=
        List.getElem?_eq_none (List.drop_eq_nil_iff.mp hdrop)
      have hend := hbefore.next_nil
      rw [hstop, ← hnone] at hend
      exact ⟨it.scan, hend, hbefore, rfl, rfl⟩
    -- The next frame is the one with the number of answers given so far.
    | cons f rest =>
      rw [hdrop] at hbefore
      have hsome : b.acknowledged[k]? = some f := by
        rw [← List.head?_drop, hdrop, List.head?_cons]
      rw [hsome]
      exact hbefore.next_cons hread
  -- The end that the iterator tells is that of the frames before its place.
  have hvalid : s.validUpTo = b.endOf (k + 1) := by
    have hlimit' := hrest.limit
    rw [hheader, h.header, hlimit, h.limit, hb.appendOffset_eq, ← b.endOf_add_rest (k + 1)]
      at hlimit'
    rw [hrest.validUpTo]
    omega
  have hstep : it.step (.next faults) =
      ⟨{ it.ledger with log := it.ledger.log.withFaults faults }, s,
        it.answers ++ [b.answerAt k]⟩ := by
    simp only [Iteration.step, RedoLog.runOn_onDevice]
    rw [show it.scan.next.runOn (it.ledger.log.withFaults faults).device = _ from hnext]
    simp only [hvalid]
    rfl
  rw [hstep]
  refine ⟨h.trimmed.withFaults faults, hlimit.trans h.limit, hheader.trans h.header, h.inside,
    hrest, ?_⟩
  show it.answers ++ [b.answerAt k] = _
  rw [h.answers, List.range_succ, List.map_append, List.map_singleton]

theorem step (hb : b.IsListed) (h : it.IsAt b k) {s : IterationStep}
    (hread : ∀ faults, s = .next faults → faults.read = false) :
    (it.step s).IsAt b (k + if s.isNext then 1 else 0) := by
  cases s with
  -- Only a step of the iterator moves it, and appends add behind its limit.
  | next faults => exact h.next hb (hread faults rfl)
  | append faults txn payload =>
    have hlog := h.trimmed.withFaults faults
    have htrimmed := hlog.append txn payload
    rcases hrun : (RedoLog.append txn payload).runOn (it.ledger.log.withFaults faults) with
      ⟨a, log⟩
    rw [hrun] at htrimmed
    simp only [Iteration.step, Ledger.call, hrun]
    rcases hlog.gains hrun with ⟨⟨err, rfl⟩, hgains⟩ | ⟨rfl, hgains⟩
    · exact h.gains hgains htrimmed
    · exact h.gains hgains htrimmed
  | flush faults =>
    exact h.gains (RedoLog.gains_flush _) (h.trimmed.withFaults faults).flush

theorem run (hb : b.IsListed) (h : it.IsAt b k) {steps : List IterationStep}
    (hread : ∀ faults, .next faults ∈ steps → faults.read = false) :
    (it.run steps).IsAt b (k + steps.countP (·.isNext)) := by
  induction steps generalizing it k with
  | nil => exact h
  | cons s rest ih =>
    have hrest := ih (h.step hb fun faults hs => hread faults (hs ▸ List.mem_cons_self))
      fun faults hs => hread faults (List.mem_cons_of_mem _ hs)
    rw [List.countP_cons]
    rwa [Nat.add_assoc, Nat.add_comm (if s.isNext = true then 1 else 0)] at hrest

end IsAt

end Iteration

/-- A log is opened on any device and then used while any calls of the device fail, where a reset
that fails asks for no later number than the first one in the log and cuts nothing off. A scan that
then begins answers with the frames that the log found and acknowledged by then, one after the
other, and with none from there on, whatever is appended meanwhile. The place where the last frame
that was read ends never goes back, and it comes to where the log ended. -/
theorem Ledger.iterator_yields_acknowledged {options : LogOptions} {d d' : Device} {log : RedoLog}
    (hopen : RedoLog.openOn options d = (.ok log, d'))
    (hstarts : log.header.startLsn.val ≤ log.nextLsn.val) {found : List Frame} {offset : Nat}
    (hfound : (RedoLog.frames.runOn (log.withFaults .none)).1 = .ok (found, offset)) {first : Lsn}
    (hfirst : first.val ≤ log.nextLsn.val) (hnumbered : ∀ f ∈ found, first.val ≤ f.lsn.val)
    {calls : List (DeviceFaults × LogCall)}
    (hcalls : (Ledger.mk log first found).ToleratesAll calls) {b : Ledger}
    (hb : (Ledger.mk log first found).run calls = b) {steps : List IterationStep}
    (hread : ∀ faults, .next faults ∈ steps → faults.read = false) :
    let it := b.iterate.run steps
    it.answers = (List.range (steps.countP (·.isNext))).map
        (fun k => (.ok b.acknowledged[k]?, b.endOf (k + 1))) ∧
      (it.answers.map Prod.snd).Pairwise (· ≤ ·) ∧
      ∀ k, b.acknowledged.length ≤ k → b.endOf k = b.log.appendOffset := by
  intro it
  -- The calls before leave a log that lists its frames, and the iterator starts at the first one.
  have hlisted : b.IsListed :=
    hb ▸ (IsListed.opened hopen hstarts hfound hfirst hnumbered).run hcalls
  have hat := (Iteration.IsAt.iterate hlisted).run hlisted hread
  rw [Nat.zero_add] at hat
  refine ⟨hat.answers, ?_, fun k hk => hlisted.endOf_eq hk⟩
  -- The ends ascend, as each one lies behind a longer list of frames.
  rw [hat.answers, List.map_map]
  exact List.pairwise_map.mpr (List.pairwise_lt_range.imp fun hlt =>
    b.endOf_mono (Nat.succ_le_succ (Nat.le_of_lt hlt)))

/-- Two frames are read while a third one is stored in part, cannot be cut off and poisons the log.
Before that a reset failed that asked for no later number. -/
theorem Ledger.iterator_yields_acknowledged_of_poisoned_log :
    let options := LogOptions.basic 7 .always
    let stuck : DeviceFaults := { DeviceFaults.none with truncate := true }
    let torn : DeviceFaults :=
      { DeviceFaults.none with write := true, torn := some 40, truncate := true }
    let calls : List (DeviceFaults × LogCall) :=
      [(.none, .append ⟨1⟩ [0xAA]), (stuck, .reset ⟨1⟩), (.none, .append ⟨2⟩ [0xBB, 0xCC])]
    let steps : List IterationStep :=
      [.next .none, .append torn ⟨3⟩ [0xDD, 0xEE], .next torn, .append .none ⟨4⟩ [], .next .none]
    ∃ log d', RedoLog.openOn options (Device.ofBytes []) = (.ok log, d') ∧
      let b := (Ledger.mk log ⟨1⟩ []).run calls
      let it := b.iterate.run steps
      it.answers =
        [(.ok (some ⟨⟨1⟩, ⟨1⟩, [0xAA]⟩), 65), (.ok (some ⟨⟨2⟩, ⟨2⟩, [0xBB, 0xCC]⟩), 99),
          (.ok none, 99)] ∧
        b.log.appendOffset = 99 ∧ it.ledger.log.poisoned = true ∧
        it.ledger.log.device.size = 133 := by
  intro options stuck torn calls steps
  let log := RedoLog.fresh options
  have hopen : RedoLog.openOn options (Device.ofBytes []) = (.ok log, log.device) :=
    RedoLog.openOn_fresh options
  refine ⟨log, _, hopen, ?_⟩
  intro b it
  -- The appends that succeed are given numbers with others left behind them.
  have hcalls : (Ledger.mk log ⟨1⟩ []).ToleratesAll calls := by
    refine ⟨fun lsn h => ?_, ⟨UInt64.le_refl _, ?_⟩, fun lsn h => ?_, trivial⟩
    · obtain rfl := Except.ok.inj h
      decide
    · decide +kernel
    · obtain rfl := Except.ok.inj h
      decide
  have hread : ∀ faults, .next faults ∈ steps → faults.read = false := by
    simp [steps, torn, DeviceFaults.none]
  obtain ⟨hanswers, -, hend⟩ := iterator_yields_acknowledged hopen (UInt64.le_refl _) rfl
    (UInt64.le_refl _) (fun _ hf => absurd hf List.not_mem_nil) hcalls (b := b) rfl hread
  -- The contents and the ends are computed before the theorem is read off.
  have hframes : b.acknowledged = [⟨⟨1⟩, ⟨1⟩, [0xAA]⟩, ⟨⟨2⟩, ⟨2⟩, [0xBB, 0xCC]⟩] ∧
      b.endOf 1 = 65 ∧ b.endOf 2 = 99 ∧ b.endOf 3 = 99 ∧ it.ledger.log.poisoned = true ∧
      it.ledger.log.device.size = 133 := by
    decide +kernel
  obtain ⟨hframes, hend₁, hend₂, hend₃, hpoisoned, hsize⟩ := hframes
  refine ⟨hanswers.trans ?_, ?_, hpoisoned, hsize⟩
  · show [b.answerAt 0, b.answerAt 1, b.answerAt 2] = _
    simp only [answerAt, hframes, hend₁, hend₂, hend₃]
    rfl
  · rw [← hend 2 (by rw [hframes]; exact Nat.le_refl _), hend₂]

/-- A log of one frame is to start over at a later number, and its header cannot be written. The
frame is still counted, but a scan that begins now does not give it. -/
theorem Ledger.iterator_misses_acknowledged_after_failed_reset :
    let full : DeviceFaults := { DeviceFaults.none with write := true }
    ∃ log d', RedoLog.openOn (LogOptions.basic 5 .always) (Device.ofBytes []) = (.ok log, d') ∧
      let b := (Ledger.mk log ⟨1⟩ []).run [(.none, .append ⟨1⟩ [0xAA]), (full, .reset ⟨10⟩)]
      b.acknowledged = [⟨⟨1⟩, ⟨1⟩, [0xAA]⟩] ∧ b.log.nextLsn = ⟨2⟩ ∧ b.log.appendOffset = 65 ∧
        b.log.poisoned = false ∧
        (b.iterate.run [.next .none]).answers.map (fun a => (a.1.toOption, a.2)) =
          [(some none, LogHeader.size)] :=
  ⟨_, _, RedoLog.openOn_fresh _, by decide +kernel⟩

end TxnStore
