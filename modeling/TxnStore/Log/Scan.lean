import TxnStore.Device
import TxnStore.Log.Frame

/-!
# Scanning a log

A scan reads frames from the start of a log up to a limit. It ends at the limit and at the first
frame that is cut short, fails a checksum, lies before the log's first number, or does not have the
number after the one before. What lies behind the last frame it gave is of no account.
-/

namespace TxnStore

/-- A scan under way. -/
structure LogScan where
  header : LogHeader
  /-- Where the next frame starts. -/
  offset : Nat
  /-- Where the scan ends. -/
  limit : Nat
  /-- The number that the next frame must have, once a frame was read. -/
  expected : Option Lsn
  /-- Where the last frame that was read ends. -/
  validUpTo : Nat
deriving DecidableEq, Repr

namespace LogScan

/-- A scan from the first frame up to a limit. -/
def start (header : LogHeader) (limit : Nat) : LogScan :=
  ⟨header, LogHeader.size, limit, none, LogHeader.size⟩

/-- The scan at its end. -/
def stop (s : LogScan) : LogScan := { s with offset := s.limit }

/-- The scan behind a frame that ends at `offset`. -/
def past (s : LogScan) (frame : Frame) (offset : Nat) : LogScan :=
  { s with offset := offset, validUpTo := offset, expected := some frame.lsn.next }

def admits (s : LogScan) (h : FrameHeader) : Bool :=
  s.header.startLsn.val ≤ h.lsn.val && s.expected.all (· == h.lsn) &&
    s.offset + FrameHeader.size + h.length.toNat ≤ s.limit

/-- The next frame, if there is one. A read that fails leaves the scan where it is. -/
def next (s : LogScan) : Action Device (Option Frame × LogScan) := do
  if s.limit < s.offset + FrameHeader.size then return (none, s.stop)
  let bs ← Device.read s.offset FrameHeader.size
  match FrameHeader.decode bs with
  | none => return (none, s.stop)
  | some h =>
    if s.admits h then
      let start := s.offset + FrameHeader.size
      let payload ← Device.read start h.length.toNat
      -- The salt goes into the checksum, so a frame of another log does not pass.
      if Crc32.ofFrame s.header.salt h.txn.val payload = h.checksum then
        let frame : Frame := ⟨h.lsn, h.txn, payload⟩
        return (some frame, s.past frame (start + h.length.toNat))
      else
        return (none, s.stop)
    else
      return (none, s.stop)

def collect : (bound : Nat) → LogScan → Action Device (List Frame × LogScan)
  | 0, s => return ([], s)
  | bound + 1, s => do
    match ← s.next with
    | (none, s) => return ([], s)
    | (some frame, s) =>
      let (rest, s) ← collect bound s
      return (frame :: rest, s)

/-- All frames from here on. A frame takes at least one byte below the limit. -/
def frames (s : LogScan) : Action Device (List Frame × LogScan) :=
  collect (s.limit - s.offset + 1) s

end LogScan

end TxnStore
