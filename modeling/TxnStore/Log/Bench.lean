import TxnStore.Log

/-!
# A log on a bench

A file with faults, the log that is open on it, and a scan over that log. The file can be changed
behind the log's back, and the log can be dropped and opened again on the same file.
-/

namespace TxnStore

/-- Where a scan reads. -/
inductive ScanHome where
  | file
  /-- The memory of the open log. -/
  | log
  /-- The memory of a log that is open no more. -/
  | past (device : Device)

/-- A file, the log open on it or on a memory of its own, and a scan. -/
structure LogBench where
  file : Device
  log : Option RedoLog
  /-- Whether the open log lies on the file. -/
  attached : Bool
  scan : Option (LogScan × ScanHome)

namespace LogBench

/-- A file without an open log. -/
def ofBytes (bs : List UInt8) : LogBench := ⟨Device.ofBytes bs, none, false, none⟩

/-- Changes the file; a log on it sees the change. -/
def setFile (b : LogBench) (file : Device) : LogBench :=
  { b with
    file
    log := if b.attached then b.log.map fun log => { log with device := file } else b.log }

/-- The bench without its log; a scan goes on reading where it was. -/
def dropLog (b : LogBench) : LogBench :=
  { b with
    log := none
    attached := false
    scan :=
      match b.scan, b.log with
      | some (scan, .log), some log => some (scan, .past log.device)
      | scan, _ => scan }

/-- Drops the open log and opens one on the file. -/
def openFile (b : LogBench) (options : LogOptions) : Except StoreError Unit × LogBench :=
  let b := b.dropLog
  match RedoLog.openOn options b.file with
  | (.ok log, file) => (.ok (), { b with file, log := some log, attached := true })
  | (.error e, file) => (.error e, { b with file })

/-- Drops the open log and makes one in memory. -/
def openMemory (b : LogBench) (options : LogOptions) : Except StoreError Unit × LogBench :=
  match RedoLog.inMemory options with
  | .ok log => (.ok (), { b.dropLog with log := some log })
  | .error e => (.error e, b.dropLog)

/-- The bench with another state of its log. -/
def setLog (b : LogBench) (log : RedoLog) : LogBench :=
  { b with log := some log, file := if b.attached then log.device else b.file }

def run {α : Type} (b : LogBench) (log : RedoLog) (a : Action RedoLog α) :
    Except StoreError α × LogBench :=
  let (r, log) := a.runOn log
  (r, b.setLog log)

def startScan (b : LogBench) (log : RedoLog) : LogBench :=
  { b with scan := some (log.scan, if b.attached then .file else .log) }

def scanDevice (b : LogBench) : ScanHome → Device
  | .file => b.file
  | .log => (b.log.map (·.device)).getD b.file
  | .past device => device

/-- The next frame of a scan, and the offset up to which the scan has got. -/
def nextFrame (b : LogBench) (scan : LogScan) (home : ScanHome) :
    Except StoreError (Option Frame × Nat) × LogBench :=
  match (scan.next.runOn (b.scanDevice home)).1 with
  | .ok (frame, scan) => (.ok (frame, scan.validUpTo), { b with scan := some (scan, home) })
  | .error e => (.error e, b)

/-- Inverts a byte of the file. -/
def flip (b : LogBench) (offset : Nat) : Except StoreError Unit × LogBench :=
  match b.file.invertByte offset with
  | .ok file => (.ok (), b.setFile file)
  | .error e => (.error e, b)

end LogBench

end TxnStore
