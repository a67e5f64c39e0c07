import TxnStore.Engine.Undo

/-!
# Transactions

A write takes effect in its map at once, as a version that its transaction owns; the other
transactions go on reading what was committed last, and may not write to the key. A commit writes
the redo records of the writes to the log in one frame and then makes the writes final; if the
records cannot be written, it undoes the writes instead. A savepoint is the number of writes made so
far. -/

namespace TxnStore.Engine

/-- Starts a transaction. -/
def beginWith (isolation : Isolation) : Action Engine TxnId := do
  let e ← get
  set { e with
    live := e.live.insert e.nextTxn ⟨isolation, []⟩
    repeatableReaders :=
      if isolation.needsRepeatableRead then e.repeatableReaders + 1 else e.repeatableReaders
    nextTxn := ⟨e.nextTxn.val + 1⟩ }
  return e.nextTxn

/-- The transaction of a number, if it is under way. -/
def liveTransaction (t : TxnId) : Action Engine LiveTransaction := do
  match (← get).live.get? t with
  | some txn => return txn
  | none => throw (.transactionClosed t)

def lookupMap (name : String) : Action Engine VersionMap := do
  match (← get).maps.get? name with
  | some m => return m
  | none => throw (.mapNotFound name)

/-- Gives a live transaction another log. -/
def setLog (e : Engine) (t : TxnId) (log : UndoLog) : Engine :=
  { e with live := e.live.modify t fun txn => { txn with log } }

/-! ## Reads and writes -/

def read (t : TxnId) (map : String) (key : Value) : Action Engine (Option Value) := do
  let _ ← liveTransaction t
  let m ← lookupMap map
  return (m.get? key).bind fun v => v.visibleTo t

/-- The version that a transaction puts over another, if any. A key that another transaction has
written is refused, and a delete of what the transaction does not see writes nothing. -/
def versionToWrite (t : TxnId) (map : String) (payload : Option Value) (current : Option Version) :
    Except StoreError (Option Version) :=
  match current.bind fun v => v.owner.filter (· ≠ t) with
  | some owner => .error (.writeConflict map owner)
  | none =>
    if payload.isNone && (current.bind fun v => v.visibleTo t).isNone then .ok none
    else .ok (some (.written t payload (current.bind Version.lastCommitted)))

/-- Writes a payload, or a delete, and says whether anything was written. -/
def write (t : TxnId) (map : String) (key : Value) (payload : Option Value) :
    Action Engine Bool := do
  let txn ← liveTransaction t
  let m ← lookupMap map
  let decideOn := versionToWrite t map payload
  let (r, m') := (VersionMap.replace key decideOn).runOn m
  let previous ← Action.ofExcept r
  -- What was put there, if anything, depends on the version before alone.
  match ← Action.ofExcept (decideOn previous) with
  | none => return false
  | some v =>
    -- A committed tombstone counts as no version: undoing the write then removes the slot.
    let old := previous.filter fun old => !old.isTombstone
    modify fun e =>
      { e with maps := e.maps.insert map m' }.setLog t
        (txn.log ++ [UndoRecord.ofWrite map key old v])
    return true

def put (t : TxnId) (map : String) (key value : Value) : Action Engine Unit := do
  let _ ← write t map key (some value)

/-- Deletes a key and says whether the transaction saw it. -/
def delete (t : TxnId) (map : String) (key : Value) : Action Engine Bool := write t map key none

/-! ## Savepoints -/

/-- The number of writes made so far. -/
def savepoint (t : TxnId) : Action Engine Nat := do
  return (← liveTransaction t).log.length

/-- Undoes the writes made after a savepoint. -/
def rollbackTo (t : TxnId) (savepoint : Nat) : Action Engine Unit := do
  let txn ← liveTransaction t
  if txn.log.length < savepoint then throw (.invalid .savepointAhead)
  modify fun e =>
    let (_, log, e) := UndoLog.rollbackTo txn.log savepoint e
    e.setLog t log

/-! ## The end -/

/-- The engine without a transaction. -/
def finish (e : Engine) (t : TxnId) : Engine :=
  match e.live.get? t with
  | none => e
  | some txn =>
    { e with
      live := e.live.erase t
      repeatableReaders :=
        if txn.isolation.needsRepeatableRead then e.repeatableReaders - 1
        else e.repeatableReaders }

/-- The engine once the writes of a transaction are undone and the transaction is over. -/
def aborted (e : Engine) (t : TxnId) (log : UndoLog) : Engine :=
  let (n, _, e) := UndoLog.rollbackTo log 0 e
  (e.finish t).count fun m => { m with rollbacks := m.rollbacks + 1, reverted := m.reverted + n }

/-- The engine once the writes of a transaction are final and the transaction is over. -/
def committed (e : Engine) (t : TxnId) (log : UndoLog) : Engine :=
  let (log, e) := UndoLog.commit log e
  (e.finish t).count fun m =>
    { m with commits := m.commits + 1, applied := m.applied + UndoLog.applied log }

/-- Appends a frame with redo records to the log, if there is one. -/
def logCommit (t : TxnId) (payload : List UInt8) : Action Engine Unit := do
  match (← get).log with
  | none => pure ()
  | some log =>
    let (r, log) := (RedoLog.append t payload).runOn log
    -- The log is kept even if the append failed; it may be poisoned now.
    modify fun e => { e with log := some log }
    let _ ← Action.ofExcept r
    modify fun e =>
      e.count fun m =>
        { m with redoFrames := m.redoFrames + 1, redoBytes := m.redoBytes + payload.length }

/-- Writes the redo records of pending writes to the log, and no frame where there are none. -/
def logWrites (t : TxnId) (log : UndoLog) : Action Engine Unit := do
  let (r, bs, e) := (UndoLog.writeRedo log).runOn ([], ← get)
  -- The estimates stay raised even if a later record cannot be encoded.
  set e
  let _ ← Action.ofExcept r
  if !bs.isEmpty then logCommit t bs

/-- Commits a transaction. If its redo records cannot be written, it is rolled back. -/
def commit (t : TxnId) : Action Engine Unit := do
  let txn ← liveTransaction t
  -- No write is final before the log has the frame, so all of them can still be undone.
  match ← (logWrites t txn.log).attempt with
  | .ok _ => modify fun e => e.committed t txn.log
  | .error err =>
    modify fun e => e.aborted t txn.log
    throw err

/-- Rolls a transaction back. -/
def rollback (t : TxnId) : Action Engine Unit := do
  let txn ← liveTransaction t
  modify fun e => e.aborted t txn.log

/-- The text that shows a transaction under way. -/
def transactionText (t : TxnId) (txn : LiveTransaction) : String :=
  "Transaction \x7b id: TxnId(" ++ toString t.val.toNat ++ "), isolation: " ++
    txn.isolation.shown ++ ", state: Active, records: " ++ toString txn.log.length ++ " \x7d"

end TxnStore.Engine
