import TxnStore.Engine
import TxnStore.Value.Shown

/-!
# Finishing writes

A pending write is finished once: it is made final by a commit or undone by a rollback, and skipped
if its map is gone by then. Finishing it again changes nothing. A commit of a delete removes the
slot, or leaves a committed tombstone there while a transaction is under way that must read the same
value each time. Before a commit, the pending writes are written as redo records.
-/

namespace TxnStore

namespace UndoRecord

/-- The pending record of a write; `old` is the version that the write replaced, unless there was
none or it was a committed tombstone. -/
def ofWrite (map : String) (key : Value) (old : Option Version) (written : Version) : UndoRecord :=
  { map, key, written
    kind :=
      match old with
      | none => .insert
      | some old => if written.payload.isNone then .delete old else .update old
    state := .pending }

/-- The version that the write replaced. -/
def old? (r : UndoRecord) : Option Version :=
  match r.kind with
  | .insert => none
  | .update old => some old
  | .delete old => some old

/-- Whether the write is finished. -/
def isFinished (r : UndoRecord) : Bool := r.state ≠ .pending

/-- The record once its map was found missing, and the engine that counts this. -/
def skip (r : UndoRecord) (e : Engine) : UndoRecord × Engine :=
  ({ r with state := .skipped }, e.count fun m => { m with skipped := m.skipped + 1 })

def commitTo (m : VersionMap) (key : Value) (v : Version) (keepTombstone : Bool) : VersionMap :=
  if v.payload.isSome then (m.put key v).2
  -- A reader that must see the same value again still needs the slot.
  else if keepTombstone then (m.dropRow.put key v).2
  else (m.remove key).2

/-- Makes a write final. -/
def commit (r : UndoRecord) (e : Engine) : UndoRecord × Engine :=
  if r.isFinished then (r, e)
  else
    match e.maps.get? r.map with
    | none => r.skip e
    | some m =>
      let m := commitTo m r.key r.written.commit e.hasRepeatableReaders
      ({ r with state := .applied }, { e with maps := e.maps.insert r.map m })

def revertIn (r : UndoRecord) (m : VersionMap) : VersionMap :=
  match r.old? with
  | none => (m.remove r.key).2
  | some old => (m.put r.key (r.written.rollback old)).2

/-- Undoes a write. -/
def rollback (r : UndoRecord) (e : Engine) : UndoRecord × Engine :=
  if r.isFinished then (r, e)
  else
    match e.maps.get? r.map with
    | none => r.skip e
    | some m =>
      ({ r with state := .reverted }, { e with maps := e.maps.insert r.map (r.revertIn m) })

def toRedo (r : UndoRecord) : RedoRecord := ⟨r.map, r.key, r.written.payload⟩

/-- Writes the redo record of a pending write behind the bytes, adds its size to the estimate of the
map, and gives the size. -/
def writeRedo (r : UndoRecord) : Action (List UInt8 × Engine) Nat := do
  let (bs, e) ← get
  if r.isFinished then return 0
  match e.maps.get? r.map with
  | none => return 0
  | some m =>
    let record ← Action.ofExcept (r.toRedo.encode m.keyCodec m.valueCodec)
    set (bs ++ record, e.addEstimate r.map (UInt64.ofNat record.length))
    return record.length

/-- The name of what a write did. -/
def kindName (r : UndoRecord) : String :=
  match r.kind with
  | .insert => "insert"
  | .update _ => "update"
  | .delete _ => "delete"

end UndoRecord

def WriteState.name : WriteState → String
  | pending => "Pending"
  | applied => "Applied"
  | reverted => "Reverted"
  | skipped => "Skipped"

def UndoRecord.debugText (r : UndoRecord) : String :=
  "UndoLogRecord \x7b map: " ++ Quoted.text r.map ++ ", key: " ++ r.key.shown ++ ", kind: " ++
    Quoted.text r.kindName ++ ", state: " ++ r.state.name ++ " \x7d"

namespace UndoLog

/-- Makes the writes final, the oldest first. -/
def commit : UndoLog → Engine → UndoLog × Engine
  | [], e => ([], e)
  | r :: rest, e =>
    let (r, e) := r.commit e
    let (rest, e) := commit rest e
    (r :: rest, e)

/-- How many writes are final. -/
def applied (log : UndoLog) : Nat := log.countP fun r => r.state = .applied

/-- Undoes writes in the order given, and says how many were pending and are undone. -/
def revertAll : List UndoRecord → Engine → Nat × Engine
  | [], e => (0, e)
  | r :: rest, e =>
    let (r', e) := r.rollback e
    let (n, e) := revertAll rest e
    (if !r.isFinished && r'.state = .reverted then n + 1 else n, e)

/-- Undoes the writes from a position on, the newest first, and drops their records. -/
def rollbackTo (log : UndoLog) (position : Nat) (e : Engine) : Nat × UndoLog × Engine :=
  let (n, e) := revertAll (log.drop position).reverse e
  (n, log.take position, e)

/-- Writes the redo records of the pending writes behind the bytes, the oldest first, and gives
their size. -/
def writeRedo : UndoLog → Action (List UInt8 × Engine) Nat
  | [] => return 0
  | r :: rest => do
    let n ← r.writeRedo
    return n + (← writeRedo rest)

end UndoLog

end TxnStore
