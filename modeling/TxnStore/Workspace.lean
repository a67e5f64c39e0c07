import TxnStore.Disk
import TxnStore.Engine.Replay
import TxnStore.Engine.Transaction
import TxnStore.Schema

/-!
# Workspaces

A workspace holds what one user works with: a directory, a log file, the catalogs opened so far, an
engine and a schema over one of them, and what the user has given names to. A catalog or a file can
be in use at several places. Each operation takes the current state of what it uses from the
workspace and puts the new state back, so that all places see it.
-/

namespace TxnStore

/-- What the first catalog of a workspace is. -/
inductive CatalogChoice where
  | memory
  /-- In memory, and set to fail at will. -/
  | faulty
  /-- The document in the directory. -/
  | file
deriving DecidableEq, Repr

/-- The choice that a word stands for; memory is chosen where there is no such word. -/
def CatalogChoice.ofName (s : String) : CatalogChoice :=
  if s = "file" then file else if s = "faulty" then faulty else memory

/-- Where the log of an engine lies. -/
inductive LogHome where
  /-- On the workspace's log file. -/
  | logFile
  /-- On a file at a place of the disk. -/
  | disk (place : String)
  /-- Nowhere that others see. -/
  | detached
deriving DecidableEq, Repr

/-- An engine in use. -/
structure HeldEngine where
  engine : Engine
  /-- The number of its catalog. -/
  catalog : Nat
  home : LogHome

/-- A schema in use. -/
structure HeldSchema where
  schema : Schema
  /-- The number of its catalog. -/
  catalog : Nat

/-- A sequence that was given a name. -/
inductive KnownSequence where
  /-- One of the schema, by the name that it has there. -/
  | registered (name : String)
  /-- One of its own, with the number of its catalog. -/
  | free (sequence : Sequence) (catalog : Nat)

/-- What one user works with. -/
structure Workspace where
  choice : CatalogChoice
  disk : Disk
  logFile : Device
  /-- The catalogs opened so far. -/
  catalogs : List Catalog
  /-- The number of the catalog in use. -/
  current : Nat
  engine : Option HeldEngine
  schema : Option HeldSchema
  transactions : Table String TxnId
  savepoints : Table String Nat
  /-- The maps created since the engine was opened: nothing for one that is still open, else its
  state when it was dropped. -/
  handles : Table String (Option VersionMap)
  /-- The counts of the last engine that kept counts. -/
  counts : Metrics
  sequences : Table String KnownSequence
  /-- A log of writes that belongs to no transaction. -/
  undoLog : UndoLog
  /-- Records of writes that belong to no log. -/
  records : List UndoRecord
  /-- The keys mentioned so far, by the names of their maps. -/
  mentioned : Table String (Table Value Unit)

namespace Workspace

/-- The name of the catalog's document. -/
def catalogFile : String := "catalog.json"

/-- The name of the log in a directory of its own. -/
def logFileName : String := "redo.log"

def documentAt (disk : Disk) (path : String) : DocumentFile :=
  ⟨disk.fullPath path, (disk.filePlace? path).isSome, disk.item path⟩

/-- A workspace in a directory. -/
def openIn (choice : CatalogChoice) (disk : Disk) : Except StoreError Workspace := do
  let catalog ←
    match choice with
    | .file => Catalog.openFile (documentAt disk catalogFile)
    | _ => .ok .inMemory
  return {
    choice, disk
    logFile := Device.ofBytes []
    catalogs := [catalog]
    current := 0
    engine := none
    schema := none
    transactions := Table.empty
    savepoints := Table.empty
    handles := Table.empty
    counts := .zero
    sequences := Table.empty
    undoLog := []
    records := []
    mentioned := Table.empty }

/-- Runs an action on the directory. -/
def onDisk {α : Type} (a : Action Disk α) : Action Workspace α :=
  Action.onPart (·.disk) (fun w disk => { w with disk }) a

/-! ## Catalogs -/

/-- A catalog with its document as it is now. -/
def catalogAt (w : Workspace) (i : Nat) : Catalog :=
  let c := (w.catalogs[i]?).getD .inMemory
  match c.store.document? with
  | none => c
  | some file => { c with store := c.store.setDocument (documentAt w.disk file.path) }

/-- The catalog in use. -/
def catalog (w : Workspace) : Catalog := w.catalogAt w.current

def storeDocument (disk : Disk) (c : Catalog) : Disk :=
  match c.store.document? with
  | none => disk
  | some file =>
    match file.item.bytes? with
    | none => disk
    | some bs => (disk.write file.path bs).toOption.getD disk

/-- Puts a catalog and its document back. -/
def setCatalog (w : Workspace) (i : Nat) (c : Catalog) : Workspace :=
  { w with catalogs := w.catalogs.set i c, disk := storeDocument w.disk c }

/-- Takes a new catalog into use. -/
def addCatalog (w : Workspace) (c : Catalog) : Workspace :=
  { w with catalogs := w.catalogs ++ [c], current := w.catalogs.length }

/-- Runs an action on the catalog in use. -/
def onCatalog {α : Type} (a : Action Catalog α) : Action Workspace α :=
  Action.onPart catalog (fun w c => w.setCatalog w.current c) a

/-- Forgets the schema and the sequences, and reads a document again. -/
def reopenCatalog : Action Workspace Unit := do
  modify fun w => { w with schema := none, sequences := Table.empty }
  let w ← get
  if w.choice = .file then
    set (w.addCatalog (← Action.ofExcept (Catalog.openFile (documentAt w.disk catalogFile))))

/-- Sets which calls of the first catalog fail. A document fails to be stored once the directory is
gone; the directory comes back empty. -/
def setCatalogFaults (w : Workspace) (faults : CatalogFaults) : Workspace :=
  match w.choice with
  | .memory => w
  | .faulty =>
    { w with
      catalogs := w.catalogs.modify 0 fun c =>
        { c with store := { c.store with backing := .memory faults } } }
  | .file =>
    if faults.commit then
      let detach (h : HeldEngine) : HeldEngine :=
        match h.home with
        | .disk _ => { h with home := .detached }
        | _ => h
      { w with disk := w.disk.remove, engine := w.engine.map detach }
    else { w with disk := w.disk.restore }

/-! ## Engines -/

/-- A log on its device as that is now. -/
def refreshLog (w : Workspace) (home : LogHome) (log : RedoLog) : RedoLog :=
  match home with
  | .logFile => { log with device := w.logFile }
  | .disk place =>
    match w.disk.files.get? place with
    | some bs => { log with device := { log.device with bytes := bs } }
    | none => log
  | .detached => log

/-- An engine with its catalog and its log as they are now. -/
def refreshEngine (w : Workspace) (h : HeldEngine) : Engine :=
  { h.engine with
    catalog := w.catalogAt h.catalog
    log := h.engine.log.map (w.refreshLog h.home) }

/-- Puts the device of a log back. -/
def storeLog (w : Workspace) (home : LogHome) (log : Option RedoLog) : Workspace :=
  match home, log with
  | .logFile, some log => { w with logFile := log.device }
  | .disk place, some log =>
    { w with disk := (w.disk.write place log.device.bytes).toOption.getD w.disk }
  | _, _ => w

/-- Puts an engine back, with its catalog, its log and its counts. -/
def setEngine (w : Workspace) (h : HeldEngine) (e : Engine) : Workspace :=
  let w := (w.setCatalog h.catalog e.catalog).storeLog h.home e.log
  { w with engine := some { h with engine := e }, counts := e.metrics.getD w.counts }

/-- Runs an action on an engine of the workspace. -/
def onEngine {α : Type} (h : HeldEngine) (a : Action Engine α) : Action Workspace α :=
  Action.onPart (fun w => w.refreshEngine h) (fun w e => w.setEngine h e) a

/-- Undoes the transactions under way, in the order of their names, and forgets the engine and what
was named in it. -/
def closeEngine (w : Workspace) : Workspace :=
  let undo (w : Workspace) (t : TxnId) : Workspace :=
    match w.engine with
    | none => w
    | some h => ((onEngine h (Engine.rollback t)).runOn w).2
  let w := w.transactions.values.foldl undo w
  { w with
    engine := none
    transactions := Table.empty
    savepoints := Table.empty
    handles := Table.empty }

/-- Opens the log on the workspace's log file. -/
def openLog (options : LogOptions) : Action Workspace RedoLog :=
  Action.onPart (·.logFile) (fun w device => { w with logFile := device })
    (Action.mk (RedoLog.openOn options))

/-- Opens an engine over the catalog in use, with or without a log on the log file, and gives the
names of its maps. Without counts, those of the engine before stay. -/
def openEngine (settings : Settings) (log : Option LogOptions) (counting : Bool) :
    Action Workspace (List String) := do
  modify closeEngine
  let log ←
    match log with
    | none => pure none
    | some options => some <$> openLog options
  let metrics := if counting then some Metrics.zero else none
  modify fun w => { w with counts := metrics.getD w.counts }
  let w ← get
  let e ← Action.ofExcept (Engine.openWith settings w.catalog log metrics)
  set { w with engine := some ⟨e, w.current, .logFile⟩ }
  return e.mapNames

/-- Takes an engine in memory into use, and its catalog with it. -/
def openInMemory (w : Workspace) : Workspace :=
  let w := w.closeEngine.addCatalog .inMemory
  { w with engine := some ⟨.inMemory, w.current, .detached⟩ }

/-- Opens the engine of a directory, which is made if it is missing: first its catalog, then its
log, then the engine, into which the log is replayed. -/
def openDirectory (directory : String) (settings : Settings) :
    Action Workspace (List String) := do
  modify closeEngine
  onDisk (Disk.makeDirectory directory)
  let path := Path.join directory logFileName
  let w ← get
  let catalog ← Action.ofExcept
    (Catalog.openFile (documentAt w.disk (Path.join directory catalogFile)))
  let device ← Action.ofExcept (w.disk.device path)
  let (opened, device) := RedoLog.openOn settings.logOptions device
  set { w with disk := (w.disk.write path device.bytes).toOption.getD w.disk }
  let log ← Action.ofExcept opened
  let e ← Action.ofExcept (Engine.openWith settings catalog (some log) none)
  let (replayed, e) := Engine.recover.runOn e
  let _ ← Action.ofExcept replayed
  modify fun w =>
    let w := w.addCatalog catalog
    { w with engine := some ⟨e, w.current, .disk ((w.disk.place path).toOption.getD path)⟩ }
  return e.mapNames

/-! ## Maps by handle -/

/-- Runs an action that makes a map, and keeps a handle of the map. -/
def makeMap (h : HeldEngine) (name : String) (a : Action Engine Unit) : Action Workspace Unit := do
  onEngine h a
  modify fun w => { w with handles := w.handles.insert name none }

/-- Drops a map; a handle of it keeps the state that the map has now. -/
def dropMap (h : HeldEngine) (name : String) : Action Workspace Bool := do
  modify fun w =>
    match w.handles.get? name, h.engine.maps.get? name with
    | some none, some m => { w with handles := w.handles.insert name (some m) }
    | _, _ => w
  onEngine h (Engine.dropMap name)

def handle? (w : Workspace) (e : Engine) (name : String) : Option VersionMap :=
  match w.handles.get? name with
  | none => none
  | some (some m) => some m
  | some none => e.maps.get? name

/-- Takes note of a key of a map. -/
def mention (w : Workspace) (map : String) (key : Value) : Workspace :=
  let keys := (w.mentioned.get? map).getD Table.empty
  { w with mentioned := w.mentioned.insert map (keys.insert key ()) }

def rowsAt (m : VersionMap) (keys : List Value) : List (Value × Version) :=
  keys.filterMap fun k => (m.get? k).map fun v => (k, v)

/-- What the maps hold under the keys mentioned; nothing is said of a map that is not open. -/
def mentionedRows (w : Workspace) (e : Engine) : List (String × Option (List (Value × Version))) :=
  w.mentioned.toList.map fun (name, keys) =>
    (name, (e.maps.get? name).map fun m => rowsAt m keys.keys)

/-! ## Transactions by name -/

/-- Starts a transaction under a name. One that had the name before is undone. -/
def beginTransaction (h : HeldEngine) (name : String) (isolation : Isolation) :
    Action Workspace TxnId := do
  let before := (← get).transactions.get? name
  let undoBefore : Action Engine Unit :=
    match before with
    | some t => Engine.rollback t
    | none => pure ()
  let t ← onEngine h do
    let t ← Engine.beginWith isolation
    undoBefore
    return t
  modify fun w => { w with transactions := w.transactions.insert name t }
  return t

/-- Ends a transaction and forgets its name, however it ends. -/
def endTransaction (h : HeldEngine) (name : String) (a : Action Engine Unit) :
    Action Workspace Unit := do
  let r ← (onEngine h a).attempt
  modify fun w => { w with transactions := w.transactions.erase name }
  Action.ofExcept r

/-- Names the state that a transaction has now. -/
def nameSavepoint (h : HeldEngine) (t : TxnId) (point : String) : Action Workspace Unit := do
  let n ← onEngine h (Engine.savepoint t)
  modify fun w => { w with savepoints := w.savepoints.insert point n }

/-- Undoes the writes of a transaction after a savepoint, and gives the number of writes left. -/
def rollbackTo (h : HeldEngine) (t : TxnId) (savepoint : Nat) : Action Workspace Nat :=
  onEngine h do
    Engine.rollbackTo t savepoint
    Engine.savepoint t

/-! ## Records without a transaction -/

/-- Changes the engine and the log that belongs to no transaction. -/
def onUndoLog {α : Type} (h : HeldEngine) (f : UndoLog → Engine → α × UndoLog × Engine) :
    Action Workspace α := do
  let w ← get
  let (a, log, e) := f w.undoLog (w.refreshEngine h)
  set { w.setEngine h e with undoLog := log }
  return a

/-- Changes the engine and one of the records that belong to no log. -/
def onRecord (h : HeldEngine) (i : Nat) (r : UndoRecord)
    (f : UndoRecord → Engine → UndoRecord × Engine) : Action Workspace UndoRecord := do
  let w ← get
  let (r, e) := f r (w.refreshEngine h)
  set { w.setEngine h e with records := w.records.set i r }
  return r

/-- Writes redo records behind bytes, and gives their size or the error, and the bytes. -/
def writeRedo (h : HeldEngine) (bs : List UInt8) (a : Action (List UInt8 × Engine) Nat) :
    Action Workspace (Except StoreError Nat × List UInt8) := do
  let w ← get
  let (r, bs, e) := a.runOn (bs, w.refreshEngine h)
  set (w.setEngine h e)
  return (r, bs)

end Workspace

end TxnStore
