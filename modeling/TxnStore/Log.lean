import TxnStore.Log.Options
import TxnStore.Log.Scan

/-!
# The redo log

A log appends frames to a device and reads them back. A frame that could not be stored or made to
last is cut off again; if that fails too, the log takes no more frames until it is reset. Opening a
log keeps the frames that can be read and cuts off what follows them.
-/

namespace TxnStore

/-- What a log has done since it was opened. -/
structure LogStats where
  framesAppended : Nat
  bytesAppended : Nat
  syncs : Nat
  /-- The bytes cut off when the log was opened. -/
  truncatedBytes : Nat
deriving DecidableEq, Repr

structure RedoLog where
  device : Device
  sync : LogSync
  header : LogHeader
  appendOffset : Nat
  nextLsn : Lsn
  /-- Frames appended since frames were made to last. -/
  unsynced : Nat
  /-- A frame that was not stored could not be cut off. -/
  poisoned : Bool
  stats : LogStats
deriving DecidableEq, Repr

namespace RedoLog

def onDevice {α : Type} (a : Action Device α) : Action RedoLog α :=
  Action.onPart (·.device) (fun log d => { log with device := d }) a

/-! ## Opening -/

/-- Writes the header of a new log. -/
def format (options : LogOptions) : Action Device LogHeader := do
  let header : LogHeader := ⟨options.salt, options.startLsn⟩
  Device.write 0 header.encode
  Device.truncate LogHeader.size
  return header

/-- Reads the header of a log that was written before. -/
def readHeader (options : LogOptions) : Action Device LogHeader := do
  let bs ← Device.read 0 LogHeader.size
  let header ← Action.ofExcept (LogHeader.decode bs)
  if header.salt = options.salt then return header
  throw (.corruption .logSalt)

/-- The header of the log on a device; a device that is too short gets a new one. -/
def loadHeader (options : LogOptions) : Action Device LogHeader := do
  let size ← Device.length
  if size < LogHeader.size then format options else readHeader options

/-- Cuts off what lies behind an offset and says how many bytes that were. -/
def cutTail (validUpTo : Nat) : Action Device Nat := do
  let size ← Device.length
  if validUpTo < size then Device.truncate validUpTo
  return size - validUpTo

/-- The number after the last frame, or the header's first number where there are no frames. -/
def lsnAfter (header : LogHeader) (frames : List Frame) : Lsn :=
  match frames.getLast? with
  | some f => f.lsn.next
  | none => header.startLsn

/-- Prepares a device for appending; the log comes without the device. -/
def openDevice (options : LogOptions) : Action Device (Device → RedoLog) := do
  let header ← loadHeader options
  let size ← Device.length
  let (frames, scan) ← (LogScan.start header size).frames
  -- What lies behind the last good frame was never acknowledged, or is damaged.
  let truncated ← cutTail scan.validUpTo
  return fun device =>
    { device, header
      sync := options.sync
      appendOffset := scan.validUpTo
      nextLsn := lsnAfter header frames
      unsynced := 0
      poisoned := false
      stats := ⟨0, 0, 0, truncated⟩ }

/-- Opens the log on a device. If that fails, the device is left as opening left it. -/
def openOn (options : LogOptions) (device : Device) : Except StoreError RedoLog × Device :=
  match (openDevice options).runOn device with
  | (.ok log, device) => (.ok (log device), device)
  | (.error e, device) => (.error e, device)

def inMemory (options : LogOptions) : Except StoreError RedoLog :=
  (openOn options (Device.ofBytes [])).1

/-! ## Appending -/

/-- Stores bytes and, if the log asks for it, makes them last. -/
def persist (sync : LogSync) (offset : Nat) (bs : List UInt8) : Action Device Unit := do
  Device.write offset bs
  if sync = .always then Device.sync

/-- Cuts off a frame that was not stored; a log that cannot do that is poisoned. -/
def discardFrom (offset : Nat) : Action RedoLog Unit := do
  match ← (onDevice (Device.truncate offset)).attempt with
  | .ok _ => pure ()
  | .error _ => modify fun log => { log with poisoned := true }

/-- The log after a frame of `size` bytes was appended. -/
def appended (log : RedoLog) (size : Nat) : RedoLog :=
  { log with
    appendOffset := log.appendOffset + size
    nextLsn := log.nextLsn.next
    unsynced := if log.sync = .always then 0 else log.unsynced + 1
    stats :=
      { log.stats with
        framesAppended := log.stats.framesAppended + 1
        bytesAppended := log.stats.bytesAppended + size
        syncs := if log.sync = .always then log.stats.syncs + 1 else log.stats.syncs } }

/-- Appends a frame and gives its number. -/
def append (txn : TxnId) (payload : List UInt8) : Action RedoLog Lsn := do
  if UInt32.size ≤ payload.length then throw (.invalid .frameTooLong)
  let log ← get
  if log.poisoned then throw .logPoisoned
  let frame : Frame := ⟨log.nextLsn, txn, payload⟩
  let bs := frame.encode log.header.salt
  match ← (onDevice (persist log.sync log.appendOffset bs)).attempt with
  | .error e =>
    -- A part of the frame may lie on the device already.
    discardFrom log.appendOffset
    throw e
  | .ok _ =>
    modify fun log => log.appended bs.length
    return frame.lsn

/-! ## Other operations -/

/-- Makes the appended frames last. -/
def flush : Action RedoLog Unit := do
  onDevice Device.sync
  modify fun log =>
    { log with unsynced := 0, stats := { log.stats with syncs := log.stats.syncs + 1 } }

/-- Drops all frames and numbers the next one `startLsn`. -/
def reset (startLsn : Lsn) : Action RedoLog Unit := do
  -- The header in memory changes first: if the device then fails, the two differ.
  modify fun log => { log with header := { log.header with startLsn } }
  let log ← get
  onDevice (Device.write 0 log.header.encode)
  onDevice (Device.truncate LogHeader.size)
  onDevice Device.sync
  modify fun log =>
    { log with
      appendOffset := LogHeader.size
      nextLsn := startLsn
      unsynced := 0
      poisoned := false }

/-- A scan over the frames that are in the log now. -/
def scan (log : RedoLog) : LogScan := LogScan.start log.header log.appendOffset

def frames : Action RedoLog (List Frame × Nat) := do
  let log ← get
  let (frames, scan) ← onDevice log.scan.frames
  return (frames, scan.validUpTo)

/-- The first frame of the log, if it holds one. -/
def firstFrame : Action RedoLog (Option Frame) := do
  let log ← get
  let (frame, _) ← onDevice log.scan.next
  return frame

/-- The number of bytes of the log, and whether it holds no frame. -/
def length : Action RedoLog (Nat × Bool) := do
  let n ← onDevice Device.length
  return (n, n ≤ LogHeader.size)

def debugText (log : RedoLog) : String :=
  "RedoLog \x7b sync: " ++ log.sync.shown ++ ", append_offset: " ++
    toString log.appendOffset ++ ", next_lsn: Lsn(" ++ log.nextLsn.text ++ ") \x7d"

end RedoLog

end TxnStore
