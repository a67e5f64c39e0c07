import TxnStore.Proofs.Transactions.Outcomes

/-!
# Transactions as overlays

The plainest account of transactions that share maps. There is one committed payload for each key of
each map, and every unfinished transaction keeps its own surviving writes apart, as an overlay. A
transaction reads its overlay first and the committed payload behind it. A place that is in the
overlay of one transaction cannot be written by another. A commit lays the overlay over the
committed payloads; a transaction that ends in any other way leaves nothing behind.

Whether the redo records of a commit could be logged is not for this account to say: a commit is
given the verdict, an error or none.
-/

namespace TxnStore

/-- A key of a map. -/
@[ext]
structure Place where
  map : String
  key : Value
deriving DecidableEq, Repr

/-- Where a write was made. -/
def UndoRecord.place (r : UndoRecord) : Place := ⟨r.map, r.key⟩

/-- The surviving writes of a transaction, the newest first; no payload is a delete. -/
abbrev Overlay := List (Place × Option Value)

/-- The payload that the newest write to a place gave it. -/
def Overlay.entry? (o : Overlay) (p : Place) : Option (Option Value) := o.lookup p

/-! ## Calls and answers -/

/-- What can be asked of transactions. -/
inductive TxnCall where
  /-- Starts a transaction, at the isolation of the settings if none is named. -/
  | begin (isolation : Option Isolation)
  | read (t : TxnId) (p : Place)
  | put (t : TxnId) (p : Place) (value : Value)
  | delete (t : TxnId) (p : Place)
  | savepoint (t : TxnId)
  | rollbackTo (t : TxnId) (savepoint : Nat)
  | commit (t : TxnId)
  | rollback (t : TxnId)
  /-- Gives a transaction up without ending it. -/
  | drop (t : TxnId)
deriving DecidableEq, Repr

/-- What a call answers if it does not fail. -/
inductive TxnAnswer where
  | begun (t : TxnId)
  | found (payload : Option Value)
  | deleted (seen : Bool)
  | saved (savepoint : Nat)
  | done
deriving DecidableEq, Repr

namespace TxnCall

def action : TxnCall → Action Engine TxnAnswer
  | begin isolation => do
    let e ← get
    .begun <$> Engine.beginWith (isolation.getD e.settings.defaultIsolation)
  | read t p => .found <$> Engine.read t p.map p.key
  | put t p value => (fun _ => .done) <$> Engine.put t p.map p.key value
  | delete t p => .deleted <$> Engine.delete t p.map p.key
  | savepoint t => .saved <$> Engine.savepoint t
  | rollbackTo t n => (fun _ => .done) <$> Engine.rollbackTo t n
  | commit t => (fun _ => .done) <$> Engine.commit t
  | rollback t => (fun _ => .done) <$> Engine.rollback t
  | drop t => (fun _ => .done) <$> (Engine.rollback t).attempt

/-- Whether a call starts a transaction. -/
def isBegin : TxnCall → Bool
  | begin _ => true
  | _ => false

end TxnCall

namespace Engine

/-- The answers of an engine to calls one after the other, and the engine after them. -/
def serve (e : Engine) : List TxnCall → List (Except StoreError TxnAnswer) × Engine
  | [] => ([], e)
  | c :: rest =>
    let (a, e) := c.action.runOn e
    let (answers, e) := serve e rest
    (a :: answers, e)

/-- The error with which the writes of a transaction cannot be logged, if a call commits one. -/
def verdict (e : Engine) : TxnCall → Option StoreError
  | .commit t =>
    match e.live.get? t with
    | none => none
    | some txn =>
      match ((logWrites t txn.log).runOn e).1 with
      | .ok _ => none
      | .error err => some err
  | _ => none

/-- The calls that an engine serves, each with the verdict that it meets. -/
def judged (e : Engine) : List TxnCall → List (TxnCall × Option StoreError)
  | [] => []
  | c :: rest => (c, e.verdict c) :: judged (c.action.runOn e).2 rest

end Engine

/-! ## The machine of overlays -/

/-- Committed payloads, and an overlay for each unfinished transaction. -/
structure OverlayMachine where
  /-- Whether a map is open. -/
  isOpen : String → Bool
  committed : Place → Option Value
  /-- The overlay of a transaction, if it is unfinished. -/
  overlay? : TxnId → Option Overlay
  /-- Every transaction that was ever begun. -/
  begun : List TxnId
  nextTxn : TxnId

namespace OverlayMachine

/-- What a transaction with a given overlay sees at a place. -/
def see (r : OverlayMachine) (o : Overlay) (p : Place) : Option Value :=
  (o.entry? p).getD (r.committed p)

/-- Whether a transaction is unfinished and has a surviving write to a place. -/
def holds (r : OverlayMachine) (t : TxnId) (p : Place) : Bool :=
  (r.overlay? t).any fun o => (o.entry? p).isSome

/-- Another transaction that holds a place. -/
def otherHolder? (r : OverlayMachine) (t : TxnId) (p : Place) : Option TxnId :=
  r.begun.find? fun u => u ≠ t && r.holds u p

/-- Gives a transaction an overlay, or ends it. -/
def setOverlay (r : OverlayMachine) (t : TxnId) (o : Option Overlay) : OverlayMachine :=
  { r with overlay? := fun u => if u = t then o else r.overlay? u }

/-- Acts on the overlay of an unfinished transaction. -/
def onOverlay {α : Type} (r : OverlayMachine) (t : TxnId)
    (f : Overlay → Except StoreError α × OverlayMachine) : Except StoreError α × OverlayMachine :=
  match r.overlay? t with
  | none => (.error (.transactionClosed t), r)
  | some o => f o

/-- Starts a transaction with nothing written. -/
def start (r : OverlayMachine) : OverlayMachine :=
  { r.setOverlay r.nextTxn (some []) with
    begun := r.nextTxn :: r.begun
    nextTxn := ⟨r.nextTxn.val + 1⟩ }

/-- Writes a payload or a delete, and says whether anything was written: a place that another
transaction holds is refused, and a delete of what is not seen writes nothing. -/
def write (r : OverlayMachine) (t : TxnId) (p : Place) (payload : Option Value) :
    Except StoreError Bool × OverlayMachine :=
  r.onOverlay t fun o =>
    if !r.isOpen p.map then (.error (.mapNotFound p.map), r)
    else
      match r.otherHolder? t p with
      | some u => (.error (.writeConflict p.map u), r)
      | none =>
        if payload.isNone && (r.see o p).isNone then (.ok false, r)
        else (.ok true, r.setOverlay t (some ((p, payload) :: o)))

/-- Lays the overlay of a transaction over the committed payloads of the open maps and ends the
transaction. -/
def settle (r : OverlayMachine) (t : TxnId) (o : Overlay) : OverlayMachine :=
  { r.setOverlay t none with
    committed := fun p => if r.isOpen p.map then r.see o p else r.committed p }

/-- What a transaction sees at a place of an open map. -/
def read (r : OverlayMachine) (t : TxnId) (p : Place) :
    Except StoreError (Option Value) × OverlayMachine :=
  r.onOverlay t fun o =>
    if r.isOpen p.map then (.ok (r.see o p), r) else (.error (.mapNotFound p.map), r)

/-- The number of surviving writes. -/
def savepoint (r : OverlayMachine) (t : TxnId) : Except StoreError Nat × OverlayMachine :=
  r.onOverlay t fun o => (.ok o.length, r)

/-- Goes back to the oldest writes, as many as there were at a savepoint. -/
def rollbackTo (r : OverlayMachine) (t : TxnId) (savepoint : Nat) :
    Except StoreError Unit × OverlayMachine :=
  r.onOverlay t fun o =>
    if o.length < savepoint then (.error (.invalid .savepointAhead), r)
    else (.ok (), r.setOverlay t (some (o.drop (o.length - savepoint))))

/-- Ends a transaction: its overlay is laid over the committed payloads, unless the verdict is an
error. -/
def commit (r : OverlayMachine) (verdict : Option StoreError) (t : TxnId) :
    Except StoreError Unit × OverlayMachine :=
  r.onOverlay t fun o =>
    match verdict with
    | some err => (.error err, r.setOverlay t none)
    | none => (.ok (), r.settle t o)

/-- Ends a transaction and forgets its overlay. -/
def rollback (r : OverlayMachine) (t : TxnId) : Except StoreError Unit × OverlayMachine :=
  r.onOverlay t fun _ => (.ok (), r.setOverlay t none)

/-- An outcome as an answer. -/
def answering {α : Type} (f : α → TxnAnswer) (a : Except StoreError α × OverlayMachine) :
    Except StoreError TxnAnswer × OverlayMachine :=
  (a.1.map f, a.2)

/-- What a call answers and leaves, a commit under a given verdict. -/
def step (r : OverlayMachine) (verdict : Option StoreError) :
    TxnCall → Except StoreError TxnAnswer × OverlayMachine
  | .begin _ => (.ok (.begun r.nextTxn), r.start)
  | .read t p => answering .found (r.read t p)
  | .put t p value => answering (fun _ => .done) (r.write t p (some value))
  | .delete t p => answering .deleted (r.write t p none)
  | .savepoint t => answering .saved (r.savepoint t)
  | .rollbackTo t n => answering (fun _ => .done) (r.rollbackTo t n)
  | .commit t => answering (fun _ => .done) (r.commit verdict t)
  | .rollback t => answering (fun _ => .done) (r.rollback t)
  | .drop t => (.ok .done, (r.rollback t).2)

/-- The answers to calls one after the other, and the machine after them. -/
def run (r : OverlayMachine) :
    List (TxnCall × Option StoreError) → List (Except StoreError TxnAnswer) × OverlayMachine
  | [] => ([], r)
  | (c, verdict) :: rest =>
    let (a, r) := r.step verdict c
    let (answers, r) := run r rest
    (a :: answers, r)

end OverlayMachine

end TxnStore
