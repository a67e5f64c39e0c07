import TxnStore.Engine.Transaction

/-!
# What the operations of a transaction do

Each operation as a function of the engine: its answer and the engine after it. A transaction that
is not under way is refused by all of them, and so is a map that is not open by those that name one.
Behind them stand the parts of the engine that the undoing, the finishing and the logging of writes
leave alone.
-/

namespace TxnStore

open TxnStore.Action

/-! ## What undoing, finishing and logging leave alone -/

/-- Two engines with the same maps and the same transactions under way. -/
structure SameWork (e e' : Engine) : Prop where
  maps : e'.maps = e.maps
  live : e'.live = e.live
  nextTxn : e'.nextTxn = e.nextTxn

namespace SameWork

theorem refl (e : Engine) : SameWork e e := ⟨rfl, rfl, rfl⟩

end SameWork

theorem Engine.addEstimate_eq (e : Engine) (map : String) (bytes : UInt64) :
    ∃ dirty, e.addEstimate map bytes = { e with dirty } := by
  unfold addEstimate
  split
  · exact ⟨e.dirty, rfl⟩
  · exact ⟨_, rfl⟩

namespace UndoRecord

/-- Undoing a write changes the maps and the counts. -/
theorem rollback_eq (r : UndoRecord) (e : Engine) :
    (r.rollback e).2 =
      { e with maps := (r.rollback e).2.maps, metrics := (r.rollback e).2.metrics } := by
  unfold rollback
  split
  · rfl
  · cases e.maps.get? r.map <;> rfl

/-- Making a write final changes the maps and the counts. -/
theorem commit_eq (r : UndoRecord) (e : Engine) :
    (r.commit e).2 =
      { e with maps := (r.commit e).2.maps, metrics := (r.commit e).2.metrics } := by
  unfold commit
  split
  · rfl
  · cases e.maps.get? r.map <;> rfl

theorem runOn_writeRedo (r : UndoRecord) (bs : List UInt8) (e : Engine) :
    r.writeRedo.runOn (bs, e) =
      if r.isFinished then (.ok 0, bs, e)
      else
        match e.maps.get? r.map with
        | none => (.ok 0, bs, e)
        | some m =>
          match r.toRedo.encode m.keyCodec m.valueCodec with
          | .error err => (.error err, bs, e)
          | .ok record =>
            (.ok record.length, bs ++ record,
              e.addEstimate r.map (UInt64.ofNat record.length)) := by
  unfold writeRedo
  rw [runOn_bind, runOn_get]
  by_cases hdone : r.isFinished = true
  · simp [hdone]
  · cases hm : e.maps.get? r.map with
    | none => simp [hdone, hm]
    | some m =>
      cases he : r.toRedo.encode m.keyCodec m.valueCodec <;>
        simp [hdone, hm, he, runOn_bind, Except.map]

/-- Writing the redo record of a write changes the estimates only. -/
theorem writeRedo_eq (r : UndoRecord) (bs : List UInt8) (e : Engine) :
    ∃ dirty, (r.writeRedo.runOn (bs, e)).2.2 = { e with dirty } := by
  rw [runOn_writeRedo]
  split
  · exact ⟨e.dirty, rfl⟩
  · split
    · exact ⟨e.dirty, rfl⟩
    · split
      · exact ⟨e.dirty, rfl⟩
      · exact e.addEstimate_eq r.map _

end UndoRecord

namespace UndoLog

/-- Undoing writes changes the maps and the counts. -/
theorem revertAll_eq (rs : List UndoRecord) (e : Engine) :
    (revertAll rs e).2 =
      { e with maps := (revertAll rs e).2.maps, metrics := (revertAll rs e).2.metrics } := by
  -- The engine varies: each record is undone on what the one before has left.
  induction rs generalizing e with
  | nil => rfl
  | cons r rest ih =>
    show (revertAll rest (r.rollback e).2).2 = { e with
      maps := (revertAll rest (r.rollback e).2).2.maps
      metrics := (revertAll rest (r.rollback e).2).2.metrics }
    rw [ih, r.rollback_eq e]

/-- Making writes final changes the maps and the counts. -/
theorem commit_eq (log : UndoLog) (e : Engine) :
    (commit log e).2 =
      { e with maps := (commit log e).2.maps, metrics := (commit log e).2.metrics } := by
  induction log generalizing e with
  | nil => rfl
  | cons r rest ih =>
    show (commit rest (r.commit e).2).2 = { e with
      maps := (commit rest (r.commit e).2).2.maps
      metrics := (commit rest (r.commit e).2).2.metrics }
    rw [ih, r.commit_eq e]

/-- Writing the redo records of writes changes the estimates only. -/
theorem writeRedo_eq (log : UndoLog) (bs : List UInt8) (e : Engine) :
    ∃ dirty, ((writeRedo log).runOn (bs, e)).2.2 = { e with dirty } := by
  -- The bytes vary along with the engine, since each record is written behind those before it.
  induction log generalizing bs e with
  | nil => exact ⟨e.dirty, rfl⟩
  | cons r rest ih =>
    obtain ⟨dirty, hhead⟩ := r.writeRedo_eq bs e
    unfold writeRedo
    rw [runOn_bind]
    rcases hr : r.writeRedo.runOn (bs, e) with ⟨err | n, bs', e'⟩
    · -- A record that cannot be encoded ends the writing.
      rw [hr] at hhead
      exact ⟨dirty, hhead⟩
    · rw [hr] at hhead
      obtain rfl : e' = { e with dirty } := hhead
      obtain ⟨dirty', htail⟩ := ih bs' { e with dirty }
      refine ⟨dirty', ?_⟩
      simp only [runOn_bind]
      rcases hrest : (writeRedo rest).runOn (bs', { e with dirty }) with ⟨err | k, bs'', e''⟩ <;>
        · rw [hrest] at htail
          exact htail

end UndoLog

namespace Engine

def countFrame (e : Engine) (payload : List UInt8) : Engine :=
  e.count fun m =>
    { m with redoFrames := m.redoFrames + 1, redoBytes := m.redoBytes + payload.length }

theorem runOn_logCommit (t : TxnId) (payload : List UInt8) (e : Engine) :
    (logCommit t payload).runOn e =
      match e.log with
      | none => (.ok (), e)
      | some log =>
        match (RedoLog.append t payload).runOn log with
        | (.error err, log) => (.error err, { e with log := some log })
        | (.ok _, log) => (.ok (), ({ e with log := some log } : Engine).countFrame payload) := by
  unfold logCommit
  rw [runOn_bind, runOn_get]
  simp only
  cases e.log with
  | none => rfl
  | some log =>
    rcases ha : (RedoLog.append t payload).runOn log with ⟨err | lsn, log'⟩ <;>
      simp [ha, runOn_bind, countFrame]

/-- Appending a frame changes the log and the counts. -/
theorem logCommit_eq (t : TxnId) (payload : List UInt8) (e : Engine) :
    ∃ log metrics, ((logCommit t payload).runOn e).2 = { e with log, metrics } := by
  rw [runOn_logCommit]
  cases hl : e.log with
  | none => exact ⟨e.log, e.metrics, rfl⟩
  | some log =>
    rcases ha : (RedoLog.append t payload).runOn log with ⟨err | lsn, log'⟩
    · exact ⟨some log', e.metrics, by simp only [ha]⟩
    · exact ⟨some log', _, by simp only [ha]; rfl⟩

/-- Logging writes changes the log, the estimates and the counts. -/
theorem logWrites_eq (t : TxnId) (log : UndoLog) (e : Engine) :
    ∃ log' dirty metrics,
      ((logWrites t log).runOn e).2 = { e with log := log', dirty, metrics } := by
  obtain ⟨dirty, hredo⟩ := UndoLog.writeRedo_eq log [] e
  unfold logWrites
  rw [runOn_bind, runOn_get]
  -- A record that cannot be encoded stops the logging before the log is reached.
  rcases hr : (UndoLog.writeRedo log).runOn ([], e) with ⟨err | n, bs, e'⟩
  · rw [hr] at hredo
    refine ⟨e.log, dirty, e.metrics, ?_⟩
    simpa only [hr, runOn_bind, runOn_set, runOn_ofExcept] using hredo
  · rw [hr] at hredo
    obtain rfl : e' = { e with dirty } := hredo
    obtain ⟨log', metrics, hcommit⟩ := logCommit_eq t bs { e with dirty }
    simp only [hr, runOn_bind, runOn_set, runOn_ofExcept]
    -- Where there is nothing to log, the log is not touched.
    split
    · exact ⟨log', dirty, metrics, hcommit⟩
    · exact ⟨e.log, dirty, e.metrics, rfl⟩

theorem runOn_logWrites_sameWork (t : TxnId) (log : UndoLog) (e : Engine) :
    SameWork e ((logWrites t log).runOn e).2 := by
  obtain ⟨log', dirty, metrics, hlogged⟩ := logWrites_eq t log e
  rw [hlogged]
  exact ⟨rfl, rfl, rfl⟩

theorem live_of_logWrites {t : TxnId} {log : UndoLog} {e e' : Engine} {a : Except StoreError Unit}
    (h : (logWrites t log).runOn e = (a, e')) : e'.live = e.live := by
  have hsame := (runOn_logWrites_sameWork t log e).live
  rwa [h] at hsame

theorem maps_of_logWrites {t : TxnId} {log : UndoLog} {e e' : Engine} {a : Except StoreError Unit}
    (h : (logWrites t log).runOn e = (a, e')) : e'.maps = e.maps := by
  have hsame := (runOn_logWrites_sameWork t log e).maps
  rwa [h] at hsame

theorem catalog_of_logWrites {t : TxnId} {log : UndoLog} {e e' : Engine}
    {a : Except StoreError Unit} (h : (logWrites t log).runOn e = (a, e')) :
    e'.catalog = e.catalog := by
  obtain ⟨log', dirty, metrics, hlogged⟩ := logWrites_eq t log e
  rw [h] at hlogged
  rw [show e' = { e with log := log', dirty, metrics } from hlogged]

/-! ## The operations -/

theorem runOn_beginWith (isolation : Isolation) (e : Engine) :
    (beginWith isolation).runOn e =
      (.ok e.nextTxn,
        { e with
          live := e.live.insert e.nextTxn ⟨isolation, []⟩
          repeatableReaders :=
            if isolation.needsRepeatableRead then e.repeatableReaders + 1 else e.repeatableReaders
          nextTxn := ⟨e.nextTxn.val + 1⟩ }) := rfl

theorem runOn_liveTransaction (t : TxnId) (e : Engine) :
    (liveTransaction t).runOn e =
      match e.live.get? t with
      | some txn => (.ok txn, e)
      | none => (.error (.transactionClosed t), e) := by
  unfold liveTransaction
  rw [runOn_bind, runOn_get]
  cases h : e.live.get? t <;> simp [h]

theorem runOn_lookupMap (name : String) (e : Engine) :
    (lookupMap name).runOn e =
      match e.maps.get? name with
      | some m => (.ok m, e)
      | none => (.error (.mapNotFound name), e) := by
  unfold lookupMap
  rw [runOn_bind, runOn_get]
  cases h : e.maps.get? name <;> simp [h]

theorem runOn_read (t : TxnId) (map : String) (key : Value) (e : Engine) :
    (read t map key).runOn e =
      match e.live.get? t, e.maps.get? map with
      | none, _ => (.error (.transactionClosed t), e)
      | some _, none => (.error (.mapNotFound map), e)
      | some _, some m => (.ok ((m.get? key).bind fun v => v.visibleTo t), e) := by
  unfold read
  rw [runOn_bind, runOn_liveTransaction]
  cases e.live.get? t with
  | none => rfl
  | some txn =>
    simp only [runOn_bind, runOn_lookupMap]
    cases e.maps.get? map <;> simp

/-- The engine after a transaction has put a version into a slot of a map. -/
def afterWrite (e : Engine) (t : TxnId) (log : UndoLog) (m : VersionMap) (map : String)
    (key : Value) (v : Version) : Engine :=
  { e with maps := e.maps.insert map (m.put key v).2 }.setLog t
    (log ++ [UndoRecord.ofWrite map key ((m.get? key).filter fun old => !old.isTombstone) v])

theorem runOn_write (t : TxnId) (map : String) (key : Value) (payload : Option Value)
    (e : Engine) :
    (write t map key payload).runOn e =
      match e.live.get? t, e.maps.get? map with
      | none, _ => (.error (.transactionClosed t), e)
      | some _, none => (.error (.mapNotFound map), e)
      | some txn, some m =>
        match versionToWrite t map payload (m.get? key) with
        | .error err => (.error err, e)
        | .ok none => (.ok false, e)
        | .ok (some v) => (.ok true, e.afterWrite t txn.log m map key v) := by
  unfold write
  rw [runOn_bind, runOn_liveTransaction]
  cases e.live.get? t with
  | none => rfl
  | some txn =>
    simp only [runOn_bind, runOn_lookupMap]
    cases e.maps.get? map with
    | none => rfl
    | some m =>
      simp only [VersionMap.runOn_replace]
      -- The outcome is decided once by what the slot holds, and again by what is given back.
      cases hdecided : versionToWrite t map payload (m.get? key) with
      | error err => rfl
      | ok w =>
        cases w with
        | none => simp [hdecided]
        | some v => simp [hdecided, afterWrite, Except.map]

theorem runOn_savepoint (t : TxnId) (e : Engine) :
    (savepoint t).runOn e =
      match e.live.get? t with
      | some txn => (.ok txn.log.length, e)
      | none => (.error (.transactionClosed t), e) := by
  unfold savepoint
  rw [runOn_bind, runOn_liveTransaction]
  cases e.live.get? t <;> simp

/-- The engine once a transaction has undone its writes from a position on. -/
def afterRollbackTo (e : Engine) (t : TxnId) (log : UndoLog) (position : Nat) : Engine :=
  (UndoLog.revertAll (log.drop position).reverse e).2.setLog t (log.take position)

theorem runOn_rollbackTo (t : TxnId) (position : Nat) (e : Engine) :
    (rollbackTo t position).runOn e =
      match e.live.get? t with
      | none => (.error (.transactionClosed t), e)
      | some txn =>
        if txn.log.length < position then (.error (.invalid .savepointAhead), e)
        else (.ok (), e.afterRollbackTo t txn.log position) := by
  unfold rollbackTo
  rw [runOn_bind, runOn_liveTransaction]
  cases e.live.get? t with
  | none => rfl
  | some txn =>
    by_cases h : txn.log.length < position
    · simp [h]
    · simp [h, afterRollbackTo, UndoLog.rollbackTo]

theorem runOn_commit (t : TxnId) (e : Engine) :
    (commit t).runOn e =
      match e.live.get? t with
      | none => (.error (.transactionClosed t), e)
      | some txn =>
        match (logWrites t txn.log).runOn e with
        | (.ok _, e') => (.ok (), e'.committed t txn.log)
        | (.error err, e') => (.error err, e'.aborted t txn.log) := by
  unfold commit
  rw [runOn_bind, runOn_liveTransaction]
  cases e.live.get? t with
  | none => rfl
  | some txn =>
    simp only [runOn_bind, runOn_attempt]
    rcases (logWrites t txn.log).runOn e with ⟨err | u, e'⟩ <;> simp [runOn_bind]

theorem runOn_rollback (t : TxnId) (e : Engine) :
    (rollback t).runOn e =
      match e.live.get? t with
      | none => (.error (.transactionClosed t), e)
      | some txn => (.ok (), e.aborted t txn.log) := by
  unfold rollback
  rw [runOn_bind, runOn_liveTransaction]
  cases e.live.get? t <;> simp

/-! ## The end of a transaction -/

@[simp] theorem maps_finish (e : Engine) (t : TxnId) : (e.finish t).maps = e.maps := by
  unfold finish
  cases e.live.get? t <;> rfl

@[simp] theorem nextTxn_finish (e : Engine) (t : TxnId) : (e.finish t).nextTxn = e.nextTxn := by
  unfold finish
  cases e.live.get? t <;> rfl

/-- A transaction that is over is not under way; the others are as before. -/
theorem live_finish (e : Engine) (t : TxnId) : (e.finish t).live = e.live.erase t := by
  unfold finish
  cases hl : e.live.get? t with
  | none =>
    have hnone : e.live.contains t = false := by rw [Table.contains, hl]; rfl
    exact (Table.erase_of_not_contains hnone).symm
  | some txn => rfl

/-- Giving up a transaction changes maps and counts, and what its end changes. -/
theorem aborted_eq (e : Engine) (t : TxnId) (log : UndoLog) :
    ∃ maps metrics, e.aborted t log = { e.finish t with maps, metrics } := by
  have hframe := UndoLog.revertAll_eq (log.drop 0).reverse e
  refine ⟨(e.aborted t log).maps, (e.aborted t log).metrics, ?_⟩
  simp only [aborted, UndoLog.rollbackTo]
  rw [hframe]
  unfold finish
  cases e.live.get? t <;> rfl

/-- Committing a transaction changes maps and counts, and what its end changes. -/
theorem committed_eq (e : Engine) (t : TxnId) (log : UndoLog) :
    ∃ maps metrics, e.committed t log = { e.finish t with maps, metrics } := by
  have hframe := UndoLog.commit_eq log e
  refine ⟨(e.committed t log).maps, (e.committed t log).metrics, ?_⟩
  simp only [committed]
  rw [hframe]
  unfold finish
  cases e.live.get? t <;> rfl

theorem live_aborted (e : Engine) (t : TxnId) (log : UndoLog) :
    (e.aborted t log).live = e.live.erase t := by
  obtain ⟨maps, metrics, hsame⟩ := e.aborted_eq t log
  rw [hsame]
  exact live_finish e t

theorem live_committed (e : Engine) (t : TxnId) (log : UndoLog) :
    (e.committed t log).live = e.live.erase t := by
  obtain ⟨maps, metrics, hsame⟩ := e.committed_eq t log
  rw [hsame]
  exact live_finish e t

/-- A transaction that is given up leaves the maps as undoing its writes leaves them. -/
theorem maps_aborted (e : Engine) (t : TxnId) (log : UndoLog) :
    (e.aborted t log).maps = (UndoLog.revertAll log.reverse e).2.maps := by
  show ((UndoLog.revertAll (log.drop 0).reverse e).2.finish t).maps = _
  rw [maps_finish, List.drop_zero]

theorem maps_committed (e : Engine) (t : TxnId) (log : UndoLog) :
    (e.committed t log).maps = (UndoLog.commit log e).2.maps := by
  show ((UndoLog.commit log e).2.finish t).maps = _
  rw [maps_finish]

theorem live_afterRollbackTo (e : Engine) (t : TxnId) (log : UndoLog) (n : Nat) :
    (e.afterRollbackTo t log n).live = (e.setLog t (log.take n)).live := by
  have hframe := UndoLog.revertAll_eq (log.drop n).reverse e
  rw [afterRollbackTo, hframe]
  rfl

theorem get?_live_setLog (e : Engine) (t u : TxnId) (log : UndoLog) :
    (e.setLog t log).live.get? u =
      if u = t then (e.live.get? u).map fun txn => { txn with log } else e.live.get? u :=
  Table.get?_modify e.live t u fun txn => { txn with log }

end Engine

end TxnStore
