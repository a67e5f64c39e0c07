import TxnStore.Proofs.Log.Opening

/-!
# What a log acknowledges, it keeps

A ledger is an open log together with the frames that it has acknowledged since it was opened or
last reset. During each call of the log any call of its device may fail, and a write that fails may
have stored some of its bytes. Still the log gives back the frames of the ledger and no others, now
and after it is opened again; once it cannot be sure of this, it takes no more frames until it is
reset.
-/

namespace TxnStore

open TxnStore.Action

/-- What can be asked of an open log. -/
inductive LogCall where
  | append (txn : TxnId) (payload : List UInt8)
  | flush
  | reset (startLsn : Lsn)
deriving DecidableEq, Repr

/-- The log with certain calls of its device set to fail. -/
def RedoLog.withFaults (log : RedoLog) (faults : DeviceFaults) : RedoLog :=
  { log with device := { log.device with faults } }

theorem RedoLog.Holds.withFaults {log : RedoLog} {frames : List Frame} (h : log.Holds frames)
    (faults : DeviceFaults) : (log.withFaults faults).Holds frames :=
  h.of_same rfl rfl rfl rfl rfl

/-- An open log, the number of the first frame in it, and the frames that it has acknowledged. -/
structure Ledger where
  log : RedoLog
  startLsn : Lsn
  acknowledged : List Frame

namespace Ledger

/-- The ledger of a log that was just opened. -/
def opened (options : LogOptions) (log : RedoLog) : Ledger := ⟨log, options.startLsn, []⟩

/-- The ledger after a call during which certain calls of the device fail. -/
def call (b : Ledger) (faults : DeviceFaults) : LogCall → Ledger
  | .append txn payload =>
    match (RedoLog.append txn payload).runOn (b.log.withFaults faults) with
    | (.ok lsn, log) => { b with log, acknowledged := b.acknowledged ++ [⟨lsn, txn, payload⟩] }
    | (.error _, log) => { b with log }
  | .flush => { b with log := (RedoLog.flush.runOn (b.log.withFaults faults)).2 }
  | .reset startLsn =>
    match (RedoLog.reset startLsn).runOn (b.log.withFaults faults) with
    | (.ok _, log) => ⟨log, startLsn, []⟩
    | (.error _, log) => { b with log }

/-- The ledger after calls one after the other. -/
def run (b : Ledger) (calls : List (DeviceFaults × LogCall)) : Ledger :=
  calls.foldl (fun b c => b.call c.1 c.2) b

/-- A reset succeeds, and a frame that is acknowledged leaves a number for the next one. -/
def Permits (b : Ledger) (faults : DeviceFaults) : LogCall → Prop
  | .append txn payload =>
    ∀ lsn, ((RedoLog.append txn payload).runOn (b.log.withFaults faults)).1 = .ok lsn →
      lsn.val.toNat + 1 < UInt64.size
  | .flush => True
  | .reset startLsn => ((RedoLog.reset startLsn).runOn (b.log.withFaults faults)).1 = .ok ()

/-- The same for each of a run of calls. -/
def PermitsAll (b : Ledger) : List (DeviceFaults × LogCall) → Prop
  | [] => True
  | (faults, c) :: rest => b.Permits faults c ∧ (b.call faults c).PermitsAll rest

theorem permitsAll_append {b : Ledger} {calls more : List (DeviceFaults × LogCall)}
    (h : b.PermitsAll calls) (hmore : (b.run calls).PermitsAll more) :
    b.PermitsAll (calls ++ more) := by
  induction calls generalizing b with
  | nil => exact hmore
  | cons c rest ih => exact ⟨h.1, ih h.2 hmore⟩

/-! ## What every call keeps -/

/-- The log holds the frames of the ledger, under a header with the salt and the first number. -/
structure IsKept (b : Ledger) (salt : UInt64) : Prop where
  header : b.log.header = ⟨salt, b.startLsn⟩
  holds : b.log.Holds b.acknowledged

namespace IsKept

variable {b : Ledger} {salt : UInt64}

theorem opened {options : LogOptions} {d d' : Device} {log : RedoLog} (hempty : d.bytes = [])
    (hopen : RedoLog.openOn options d = (.ok log, d')) :
    (Ledger.opened options log).IsKept options.salt := by
  obtain ⟨rfl, rfl⟩ := RedoLog.eq_of_openOn_empty hempty hopen
  refine ⟨rfl, RedoLog.holds_reopened (IsSequence.nil _) ?_⟩
  rw [LogHeader.contents_nil]

/-- What an append to the log of a ledger does. -/
theorem append_cases (h : b.IsKept salt) (faults : DeviceFaults) (txn : TxnId)
    (payload : List UInt8) :
    let log := b.log.withFaults faults
    (∃ err, (RedoLog.append txn payload).runOn log = (.error err, log)) ∨
      (log.poisoned = false ∧
        ∃ err data, (RedoLog.append txn payload).runOn log = (.error err, log.discarded data)) ∨
      (log.poisoned = false ∧ payload.length < UInt32.size ∧
        let bs := (log.frameToAppend txn payload).encode log.header.salt
        (RedoLog.append txn payload).runOn log =
          (.ok log.nextLsn, (log.extended bs).appended bs.length)) :=
  RedoLog.append_cases _ txn payload (h.holds.withFaults faults).appendOffset_eq_size

/-- A log goes on holding the frames of its ledger. -/
theorem call (h : b.IsKept salt) (faults : DeviceFaults) {c : LogCall}
    (hc : b.Permits faults c) : (b.call faults c).IsKept salt := by
  have hlog := h.holds.withFaults faults
  cases c with
  | append txn payload =>
    rcases h.append_cases faults txn payload with
      ⟨err, hrun⟩ | ⟨-, err, data, hrun⟩ | ⟨hpoisoned, hshort, hrun⟩
    · -- Nothing was stored.
      simp only [Ledger.call, hrun]
      exact ⟨h.header, hlog⟩
    · simp only [Ledger.call, hrun]
      -- What was stored is gone again, or the log is poisoned.
      exact ⟨(RedoLog.header_discarded _ data).trans h.header, hlog.discarded data⟩
    · simp only [Ledger.call, hrun]
      -- The frame is acknowledged, and its number is not the last one.
      have hlsn := hc _ (congrArg Prod.fst hrun)
      exact ⟨h.header, hlog.appended hpoisoned txn hshort hlsn⟩
  | flush =>
    have hheader : (RedoLog.flush.runOn (b.log.withFaults faults)).2.header = b.log.header := by
      rw [RedoLog.runOn_flush]
      split <;> rfl
    exact ⟨hheader.trans h.header, hlog.flush⟩
  | reset startLsn =>
    obtain ⟨log, hrun⟩ : ∃ log, (RedoLog.reset startLsn).runOn (b.log.withFaults faults) =
      (.ok (), log) := ⟨_, Prod.ext hc rfl⟩
    simp only [Ledger.call, hrun]
    rw [RedoLog.eq_of_runOn_reset hrun]
    -- A reset keeps the salt and forgets the frames, and the ledger does the same.
    refine ⟨?_, RedoLog.Holds.restarted _ startLsn⟩
    show LogHeader.mk b.log.header.salt startLsn = _
    rw [h.header]

theorem run (h : b.IsKept salt) {calls : List (DeviceFaults × LogCall)}
    (hcalls : b.PermitsAll calls) : (b.run calls).IsKept salt := by
  induction calls generalizing b with
  | nil => exact h
  | cons c rest ih => exact ih (h.call c.1 hcalls.1) hcalls.2

end IsKept

/-! ## A poisoned log -/

variable {b : Ledger} {salt : UInt64}

/-- A poisoned log refuses every append and is left as it is. -/
theorem append_of_poisoned (hpoisoned : b.log.poisoned = true) (faults : DeviceFaults) (txn : TxnId)
    (payload : List UInt8) :
    ∃ err, (RedoLog.append txn payload).runOn (b.log.withFaults faults) =
      (.error err, b.log.withFaults faults) := by
  rcases Nat.lt_or_ge payload.length UInt32.size with hshort | hlong
  · exact ⟨_, RedoLog.runOn_append_of_poisoned txn hshort hpoisoned⟩
  · exact ⟨_, RedoLog.runOn_append_of_long txn hlong⟩

theorem call_of_poisoned (hpoisoned : b.log.poisoned = true) (faults : DeviceFaults) {c : LogCall}
    (hc : ∀ startLsn, c ≠ .reset startLsn) :
    (b.call faults c).log.poisoned = true ∧
      (b.call faults c).log.device.bytes = b.log.device.bytes ∧
      (b.call faults c).acknowledged = b.acknowledged := by
  -- An append is refused, and a flush at most syncs the device.
  cases c with
  | append txn payload =>
    obtain ⟨err, hrun⟩ := append_of_poisoned hpoisoned faults txn payload
    have hcall : b.call faults (.append txn payload) =
        { b with log := b.log.withFaults faults } := by
      simp only [call, hrun]
    rw [hcall]
    exact ⟨hpoisoned, rfl, rfl⟩
  -- Whether the sync fails does not matter for what is on the device.
  | flush =>
    have hlog : (RedoLog.flush.runOn (b.log.withFaults faults)).2.poisoned = b.log.poisoned ∧
        (RedoLog.flush.runOn (b.log.withFaults faults)).2.device.bytes = b.log.device.bytes := by
      rw [RedoLog.runOn_flush]
      split <;> exact ⟨rfl, rfl⟩
    exact ⟨hlog.1.trans hpoisoned, hlog.2, rfl⟩
  | reset startLsn => exact absurd rfl (hc startLsn)

/-- Until it is reset, a poisoned log acknowledges nothing and its device keeps its bytes. -/
theorem run_of_poisoned (hpoisoned : b.log.poisoned = true)
    {calls : List (DeviceFaults × LogCall)}
    (hcalls : ∀ c ∈ calls, ∀ startLsn, c.2 ≠ .reset startLsn) :
    (b.run calls).log.poisoned = true ∧ (b.run calls).log.device.bytes = b.log.device.bytes ∧
      (b.run calls).acknowledged = b.acknowledged := by
  induction calls generalizing b with
  | nil => exact ⟨hpoisoned, rfl, rfl⟩
  | cons c rest ih =>
    obtain ⟨hstays, hbytes, hsame⟩ := call_of_poisoned hpoisoned c.1 (hcalls c List.mem_cons_self)
    have hrest : ∀ c ∈ rest, ∀ startLsn, c.2 ≠ .reset startLsn := fun c' hc' =>
      hcalls c' (List.mem_cons_of_mem _ hc')
    obtain ⟨hstays', hbytes', hsame'⟩ := ih hstays hrest
    exact ⟨hstays', hbytes'.trans hbytes, hsame'.trans hsame⟩

/-- A reset that succeeds lifts the poison, and the next frame is taken if the device works. -/
theorem reset_lifts_poison {faults : DeviceFaults} {startLsn : Lsn} {log : RedoLog}
    (hreset : (RedoLog.reset startLsn).runOn (b.log.withFaults faults) = (.ok (), log)) :
    log.poisoned = false ∧ ∀ txn payload, payload.length < UInt32.size →
      ((RedoLog.append txn payload).runOn (log.withFaults .none)).1 = .ok startLsn := by
  obtain rfl := RedoLog.eq_of_runOn_reset hreset
  refine ⟨rfl, fun txn payload hshort => ?_⟩
  let log := ((b.log.withFaults faults).restarted startLsn).withFaults .none
  -- After the reset the log is empty, and its end is the end of the device.
  have hholds : log.Holds [] :=
    (RedoLog.Holds.restarted (b.log.withFaults faults) startLsn).withFaults .none
  have hwrites : ¬log.device.faults.write = true := Bool.false_ne_true
  have hsyncs : ¬(log.sync = .always ∧ log.device.faults.sync = true) :=
    fun h => Bool.false_ne_true h.2
  rw [RedoLog.runOn_append txn hshort rfl (hholds.appendOffset_eq_size rfl), if_neg hwrites,
    if_neg hsyncs]
  rfl

theorem permitsAll_reset_append {faults : DeviceFaults} {startLsn : Lsn}
    (hreset : ((RedoLog.reset startLsn).runOn (b.log.withFaults faults)).1.toOption = some ())
    {txn : TxnId} {payload : List UInt8} (hshort : payload.length < UInt32.size)
    (hlsn : startLsn.val.toNat + 1 < UInt64.size) :
    b.PermitsAll [(faults, .reset startLsn), (.none, .append txn payload)] := by
  obtain ⟨log, hrun⟩ : ∃ log, (RedoLog.reset startLsn).runOn (b.log.withFaults faults) =
    (.ok (), log) := ⟨_, eq_ok_of_toOption_fst hreset⟩
  refine ⟨congrArg Prod.fst hrun, fun lsn h => ?_, trivial⟩
  simp only [call, hrun, (reset_lifts_poison hrun).2 txn payload hshort] at h
  cases h
  exact hlsn

/-! ## The main statement -/

/-- All that can be relied on at any time. -/
structure Reliable (b : Ledger) (salt : UInt64) : Prop where
  /-- The log gives back the acknowledged frames and no others. -/
  frames : ∀ faults, faults.read = false →
    (RedoLog.frames.runOn (b.log.withFaults faults)).1 = .ok (b.acknowledged, b.log.appendOffset)
  numbered : ∀ i f, b.acknowledged[i]? = some f → f.lsn.val.toNat = b.startLsn.val.toNat + i
  nextLsn : b.log.nextLsn.val.toNat = b.startLsn.val.toNat + b.acknowledged.length
  /-- An append that fails uses up no number and changes no frame. -/
  failed : ∀ faults txn payload err log,
    (RedoLog.append txn payload).runOn (b.log.withFaults faults) = (.error err, log) →
      log.nextLsn = b.log.nextLsn ∧ ∀ faults', faults'.read = false →
        (RedoLog.frames.runOn (log.withFaults faults')).1 =
          .ok (b.acknowledged, b.log.appendOffset)
  bytes : b.log.poisoned = false →
    b.log.device.bytes = LogHeader.contents ⟨salt, b.startLsn⟩ b.acknowledged
  /-- Opening the log again cuts nothing off and gives the same frames and numbers. -/
  reopened : b.log.poisoned = false → ∀ options faults, options.salt = salt →
    faults.read = false → faults.length = false →
      ∃ log, RedoLog.openOn options (b.log.withFaults faults).device =
          (.ok log, (b.log.withFaults faults).device) ∧
        (RedoLog.frames.runOn log).1 = .ok (b.acknowledged, b.log.appendOffset) ∧
        log.nextLsn = b.log.nextLsn ∧ log.stats.truncatedBytes = 0
  /-- A poisoned log refuses every append and leaves its device alone. -/
  refused : b.log.poisoned = true → ∀ faults txn payload,
    ∃ err, (RedoLog.append txn payload).runOn (b.log.withFaults faults) =
      (.error err, b.log.withFaults faults)
  /-- A log stays poisoned until it is reset. -/
  poisoned : b.log.poisoned = true → ∀ calls : List (DeviceFaults × LogCall),
    (∀ c ∈ calls, ∀ startLsn, c.2 ≠ .reset startLsn) →
      (b.run calls).log.poisoned = true ∧
        (b.run calls).log.device.bytes = b.log.device.bytes ∧
        (b.run calls).acknowledged = b.acknowledged
  /-- A reset that succeeds lifts the poison, and the log takes frames again. -/
  lifted : ∀ faults startLsn log,
    (RedoLog.reset startLsn).runOn (b.log.withFaults faults) = (.ok (), log) →
      log.poisoned = false ∧ ∀ txn payload, payload.length < UInt32.size →
        ((RedoLog.append txn payload).runOn (log.withFaults .none)).1 = .ok startLsn

namespace IsKept

/-- Opening the log again gives a log that holds the same frames. -/
theorem reopened (h : b.IsKept salt) (hpoisoned : b.log.poisoned = false) {options : LogOptions}
    {faults : DeviceFaults} (hsalt : options.salt = salt) (hread : faults.read = false)
    (hlength : faults.length = false) :
    ∃ log, RedoLog.openOn options (b.log.withFaults faults).device =
        (.ok log, (b.log.withFaults faults).device) ∧
      (RedoLog.frames.runOn log).1 = .ok (b.acknowledged, b.log.appendOffset) ∧
      log.nextLsn = b.log.nextLsn ∧ log.stats.truncatedBytes = 0 := by
  have hheader : b.log.header.salt = options.salt := by rw [h.header, hsalt]
  have hbytes := (h.holds.withFaults faults).unpoisoned hpoisoned
  -- A log that is not poisoned has its contents and nothing else, which is what opening asks for.
  have hopen : RedoLog.openOn options (b.log.withFaults faults).device = _ :=
    RedoLog.openOn_contents hread hlength hheader h.holds.sequence hbytes
  have hholds : (RedoLog.reopened options b.log.header b.acknowledged _).Holds b.acknowledged :=
    RedoLog.holds_reopened h.holds.sequence hbytes
  refine ⟨_, hopen, ?_, ?_, rfl⟩
  · rw [hholds.frames hread, h.holds.appendOffset]
    rfl
  · have hnext := hholds.nextLsn.trans h.holds.nextLsn.symm
    exact congrArg Lsn.mk (UInt64.toNat_inj.mp hnext)

/-- A log in which an append has failed holds what it held before. -/
theorem failed_append (h : b.IsKept salt) {faults : DeviceFaults} {txn : TxnId}
    {payload : List UInt8} {err : StoreError} {log : RedoLog}
    (hrun : (RedoLog.append txn payload).runOn (b.log.withFaults faults) = (.error err, log)) :
    log.nextLsn = b.log.nextLsn ∧ log.appendOffset = b.log.appendOffset ∧
      log.Holds b.acknowledged := by
  have hlog := h.holds.withFaults faults
  -- Of the three cases only those that end in an error are left.
  rcases h.append_cases faults txn payload with ⟨_, hrun'⟩ | ⟨-, _, data, hrun'⟩ | ⟨-, -, hrun'⟩
  · rw [hrun'] at hrun
    cases hrun
    exact ⟨rfl, rfl, hlog⟩
  · rw [hrun'] at hrun
    cases hrun
    exact ⟨RedoLog.nextLsn_discarded _ data, RedoLog.appendOffset_discarded _ data,
      hlog.discarded data⟩
  · rw [hrun'] at hrun
    cases hrun

theorem reliable (h : b.IsKept salt) : b.Reliable salt where
  frames faults hread := by
    rw [(h.holds.withFaults faults).frames hread]
    rfl
  numbered i f hf := by
    rw [h.holds.sequence.lsn hf, h.header]
  nextLsn := by
    rw [h.holds.nextLsn, h.header]
  failed faults txn payload err log hrun := by
    obtain ⟨hnext, hoffset, hholds⟩ := h.failed_append hrun
    refine ⟨hnext, fun faults' hread => ?_⟩
    rw [(hholds.withFaults faults').frames hread, ← hoffset]
    rfl
  bytes hpoisoned := by
    rw [h.holds.unpoisoned hpoisoned, h.header]
  reopened hpoisoned options faults hsalt hread hlength :=
    h.reopened hpoisoned hsalt hread hlength
  refused hpoisoned faults txn payload := append_of_poisoned hpoisoned faults txn payload
  poisoned hpoisoned calls hcalls := run_of_poisoned hpoisoned hcalls
  lifted _ _ _ hreset := reset_lifts_poison hreset

end IsKept

/-- A log that is opened on a device without bytes is reliable after every run of calls, whatever
fails on the device meanwhile, if its resets succeed and its numbers are not used up. -/
theorem reliable_run {options : LogOptions} {d d' : Device} {log : RedoLog} (hempty : d.bytes = [])
    (hopen : RedoLog.openOn options d = (.ok log, d')) {calls : List (DeviceFaults × LogCall)}
    (hcalls : (Ledger.opened options log).PermitsAll calls) :
    ((Ledger.opened options log).run calls).Reliable options.salt :=
  ((IsKept.opened hempty hopen).run hcalls).reliable

/-- A torn write is cut off again. A frame that can be neither made to last nor cut off poisons the
log, which refuses the next one. Once the log is reset, it numbers and takes frames as it was asked
to. -/
theorem reliable_run_of_torn_writes :
    let options := LogOptions.basic 7 .always
    let torn : DeviceFaults := { DeviceFaults.none with write := true, torn := some 5 }
    let stuck : DeviceFaults := { DeviceFaults.none with sync := true, truncate := true }
    let failing : List (DeviceFaults × LogCall) :=
      [(torn, .append ⟨1⟩ [1, 2]), (.none, .append ⟨2⟩ [3]), (stuck, .append ⟨3⟩ [4]),
        (.none, .append ⟨4⟩ [5])]
    let calls := failing ++ [(.none, .reset ⟨9⟩), (.none, .append ⟨5⟩ [6])]
    ∃ log d', RedoLog.openOn options (Device.ofBytes []) = (.ok log, d') ∧
      (Ledger.opened options log).PermitsAll calls ∧
      ((Ledger.opened options log).run failing).acknowledged = [⟨⟨1⟩, ⟨2⟩, [3]⟩] ∧
      ((Ledger.opened options log).run failing).log.poisoned = true ∧
      ((Ledger.opened options log).run calls).Reliable options.salt ∧
      ((Ledger.opened options log).run calls).acknowledged = [⟨⟨9⟩, ⟨5⟩, [6]⟩] ∧
      ((Ledger.opened options log).run calls).log.poisoned = false := by
  intro options torn stuck failing calls
  let log := RedoLog.fresh options
  have hopen : RedoLog.openOn options (Device.ofBytes []) = (.ok log, log.device) :=
    RedoLog.openOn_fresh options
  -- The failing calls are run by themselves, as the poison is observed before the reset.
  let before := (Ledger.opened options log).run failing
  have hpoisoned : before.acknowledged = [⟨⟨1⟩, ⟨2⟩, [3]⟩] ∧ before.log.poisoned = true := by
    decide +kernel
  have hlifted : ((Ledger.opened options log).run calls).acknowledged = [⟨⟨9⟩, ⟨5⟩, [6]⟩] ∧
      ((Ledger.opened options log).run calls).log.poisoned = false := by decide +kernel
  have hcalls : (Ledger.opened options log).PermitsAll calls := by
    apply permitsAll_append
    · -- Only the second append is acknowledged, and it leaves numbers behind.
      refine ⟨fun lsn h => ?_, fun lsn h => ?_, fun lsn h => ?_, fun lsn h => ?_, trivial⟩
      · cases h
      · cases h
        decide
      · cases h
      · cases h
    · -- The number that the append after the reset is given follows from the reset alone, so the
      -- bytes that the failing calls left behind are not computed here.
      exact permitsAll_reset_append (by decide +kernel) (by decide) (by decide)
  exact ⟨log, _, hopen, hcalls, hpoisoned.1, hpoisoned.2, reliable_run rfl hopen hcalls, hlifted⟩

end Ledger

end TxnStore
