import TxnStore.Catalog
import TxnStore.Log
import TxnStore.Settings
import TxnStore.VersionMap

/-!
# The engine

The engine holds the maps that are open, by name, and the transactions that are under way. A
transaction keeps a record of each of its writes with what the write replaced, so that the write can
be undone; a record finds its map by name. Beside them the engine estimates, map by map, how much
redo was written, and counts what its transactions did.
-/

namespace TxnStore

/-! ## Records of writes -/

/-- What a write did to its key. -/
inductive WriteKind where
  /-- The key was absent, or held a committed tombstone. -/
  | insert
  | update (old : Version)
  | delete (old : Version)
deriving DecidableEq, Repr

/-- What became of a write. Every state but the first is final. -/
inductive WriteState where
  | pending
  | applied
  | reverted
  /-- The map was gone when the write was to be finished. -/
  | skipped
deriving DecidableEq, Repr

/-- A write that can be undone. -/
structure UndoRecord where
  map : String
  key : Value
  kind : WriteKind
  /-- The version that was written. -/
  written : Version
  state : WriteState
deriving DecidableEq, Repr

/-- The records of a transaction, the oldest first. -/
abbrev UndoLog := List UndoRecord

/-! ## Transactions -/

/-- A transaction under way. -/
structure LiveTransaction where
  isolation : Isolation
  log : UndoLog

/-! ## Counts -/

/-- What the transactions of an engine did. -/
structure Metrics where
  commits : Nat
  rollbacks : Nat
  /-- Writes made final by commits. -/
  applied : Nat
  /-- Writes undone by rollbacks. -/
  reverted : Nat
  redoFrames : Nat
  redoBytes : Nat
  /-- Writes whose map was gone. -/
  skipped : Nat
deriving DecidableEq, Repr

def Metrics.zero : Metrics := ⟨0, 0, 0, 0, 0, 0, 0⟩

/-! ## The engine -/

structure Engine where
  settings : Settings
  catalog : Catalog
  /-- The log to which commits are written, if there is one. -/
  log : Option RedoLog
  /-- The counts, if they are kept. -/
  metrics : Option Metrics
  maps : Table String VersionMap
  /-- The estimated bytes of redo, for maps of which any was estimated. -/
  dirty : Table String UInt64
  live : Table TxnId LiveTransaction
  /-- How many live transactions must read the same value each time. -/
  repeatableReaders : Nat
  nextTxn : TxnId
  nextMapId : ObjectId

namespace Engine

/-- An engine without maps over a catalog. -/
def bare (settings : Settings) (catalog : Catalog) (log : Option RedoLog)
    (metrics : Option Metrics) : Engine :=
  { settings, catalog, log, metrics
    maps := Table.empty
    dirty := Table.empty
    live := Table.empty
    repeatableReaders := 0
    nextTxn := ⟨1⟩
    nextMapId := ⟨1⟩ }

/-- An engine in memory, without log and counts. -/
def inMemory : Engine := bare .basic .inMemory none none

/-- Adds to the counts, if they are kept. -/
def count (e : Engine) (f : Metrics → Metrics) : Engine := { e with metrics := e.metrics.map f }

def mapNames (e : Engine) : List String := e.maps.keys

def activeTransactions (e : Engine) : Nat := e.live.size

/-- Whether a transaction is under way that must read the same value each time. -/
def hasRepeatableReaders (e : Engine) : Bool := 0 < e.repeatableReaders

def onCatalog {α : Type} (a : Action Catalog α) : Action Engine α :=
  Action.onPart (·.catalog) (fun e c => { e with catalog := c }) a

/-- An action on the log of an engine; an engine without log has none to act on. -/
def onLog {α : Type} (a : Action RedoLog α) : Action Engine α := do
  match (← get).log with
  | none => throw .notFound
  | some log =>
    let (r, log) := a.runOn log
    modify fun e => { e with log := some log }
    Action.ofExcept r

/-! ## Estimates -/

/-- The estimated bytes of redo of a map. -/
def estimate (e : Engine) (map : String) : UInt64 := (e.dirty.get? map).getD 0

/-- Adds to the estimate of a map. Adding nothing leaves no trace. -/
def addEstimate (e : Engine) (map : String) (bytes : UInt64) : Engine :=
  if bytes = 0 then e else { e with dirty := e.dirty.insert map (e.estimate map + bytes) }

/-- The estimates of all maps together. -/
def totalEstimate (e : Engine) : UInt64 := e.dirty.values.foldl (· + ·) 0

/-- The maps whose estimate has reached the threshold of the settings. -/
def dirtyMaps (e : Engine) : List String :=
  (e.dirty.toList.filter fun d => e.settings.dirtyThreshold ≤ d.2).map Prod.fst

/-- Sets the estimate of a map to nothing and gives what it was. -/
def resetEstimate (map : String) : Action Engine UInt64 := do
  let e ← get
  match e.dirty.get? map with
  | none => return 0
  | some bytes =>
    set { e with dirty := e.dirty.insert map 0 }
    return bytes

/-! ## Maps -/

def insertMap (e : Engine) (m : VersionMap) : Except StoreError Engine :=
  if e.maps.contains m.name then .error (.mapExists m.name)
  else .ok { e with maps := e.maps.insert m.name m }

/-- Takes in a map without a word to the catalog. -/
def registerMap (m : VersionMap) : Action Engine Unit := do
  set (← Action.ofExcept ((← get).insertMap m))

def createMap (name : String) (keyCodec valueCodec : Codec) : Action Engine Unit := do
  let e ← get
  if e.maps.contains name then throw (.mapExists name)
  -- The number is used up even if the definition cannot be stored.
  set { e with nextMapId := ⟨e.nextMapId.val + 1⟩ }
  onCatalog (Catalog.persist (.ofMap e.nextMapId name ⟨keyCodec.name, valueCodec.name⟩))
  modify fun e =>
    { e with maps := e.maps.insert name (VersionMap.empty name keyCodec valueCodec) }

/-- Drops a map and its definition, and says whether there was one. -/
def dropMap (name : String) : Action Engine Bool := do
  let e ← get
  if !e.maps.contains name then return false
  -- The map is gone even if its definition cannot be removed.
  set { e with maps := e.maps.erase name }
  let key : ObjectKey := ⟨.map, name⟩
  if (e.catalog.entry? key).isSome then onCatalog (Catalog.forget key)
  modify fun e => { e with dirty := e.dirty.erase name }
  return true

/-! ## Opening -/

def resolveCodec (name : String) : Except StoreError Codec :=
  match Codec.ofName? name with
  | some c => .ok c
  | none => .error (.catalog (.unknownCodec name))

/-- The number after another, the greatest number after itself. -/
def idAfter (id : ObjectId) : ObjectId := if id.val = 0xFFFFFFFF then id else ⟨id.val + 1⟩

def restoreMap (e : Engine) (entry : CatalogEntry) (d : MapDefinition) :
    Except StoreError Engine := do
  let keyCodec ← resolveCodec d.keyCodec
  let valueCodec ← resolveCodec d.valueCodec
  -- New maps are numbered behind those of the catalog, as long as there are numbers.
  let nextMapId : ObjectId := ⟨max e.nextMapId.val (idAfter entry.id).val⟩
  insertMap { e with nextMapId } (VersionMap.empty entry.name keyCodec valueCodec)

/-- Takes in the maps of entries one after the other. -/
def restoreMaps (e : Engine) : List CatalogEntry → Except StoreError Engine
  | [] => .ok e
  | entry :: rest =>
    match entry.object with
    | .sequence _ => restoreMaps e rest
    | .map d =>
      match restoreMap e entry d with
      | .ok e => restoreMaps e rest
      | .error err => .error err

/-- Opens an engine with the maps of a catalog. Nothing is replayed from the log. -/
def openWith (settings : Settings) (catalog : Catalog) (log : Option RedoLog)
    (metrics : Option Metrics) : Except StoreError Engine := do
  settings.validate
  restoreMaps (bare settings catalog log metrics) catalog.entries

def debugText (e : Engine) : String :=
  "TransactionEngine \x7b maps: " ++ toString e.maps.size ++ ", live: " ++ toString e.live.size ++
    ", redo: " ++ (if e.log.isSome then "true" else "false") ++ ", .. \x7d"

end Engine

end TxnStore
