import TxnStore.Engine

/-!
# Replaying the log

After a stop the maps are filled again from the log: each record of each frame is put into its map
as a committed version, or removes its key. Records of maps that are not open are passed over; a
record that its map's codecs cannot read is damage and ends the replay where it stands.
-/

namespace TxnStore

structure ReplayStats where
  frames : Nat
  applied : Nat
  /-- Records whose map is not open. -/
  skipped : Nat
  lastLsn : Option Lsn
deriving DecidableEq, Repr

namespace Engine

def replayInto (m : VersionMap) (key : Value) (payload : Option Value) : VersionMap :=
  match payload with
  | some v => (m.put key (.settled (some v))).2
  | none => (m.remove key).2

/-- Replays one record and says whether its map is open. -/
def replayRecord (r : RawRecord) : Action Engine Bool := do
  let e ← get
  match e.maps.get? r.map with
  | none => return false
  | some m =>
    match r.decode m.keyCodec m.valueCodec with
    | .error _ => throw (.corruption .recordCodecs)
    | .ok (key, payload) =>
      set { e with maps := e.maps.insert r.map (replayInto m key payload) }
      return true

/-- Replays records one after the other. -/
def replayRecords (stats : ReplayStats) : List RawRecord → Action Engine ReplayStats
  | [] => return stats
  | r :: rest => do
    if ← replayRecord r then
      replayRecords { stats with applied := stats.applied + 1 } rest
    else
      replayRecords { stats with skipped := stats.skipped + 1 } rest

/-- The next frame of a scan over the log's device. -/
def nextFrame (log : RedoLog) (scan : LogScan) : Action Engine (Option Frame × LogScan) :=
  Action.ofExcept (scan.next.runOn log.device).1

/-- Replays the frames of a scan, at most `bound` of them. -/
def replayFrames (log : RedoLog) :
    (bound : Nat) → ReplayStats → LogScan → Action Engine ReplayStats
  | 0, stats, _ => return stats
  | bound + 1, stats, scan => do
    match ← nextFrame log scan with
    | (none, _) => return stats
    | (some frame, scan) =>
      let records ← Action.ofExcept frame.records
      let stats ← replayRecords stats records
      replayFrames log bound
        { stats with frames := stats.frames + 1, lastLsn := some frame.lsn } scan

/-- Replays the whole log into the maps. -/
def recover : Action Engine ReplayStats := do
  let start : ReplayStats := ⟨0, 0, 0, none⟩
  match (← get).log with
  | none => return start
  -- Each frame takes a byte below the limit, so there are never more than the bound.
  | some log => replayFrames log (log.appendOffset + 1) start log.scan

end Engine

end TxnStore
