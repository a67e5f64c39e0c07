import TxnStore.Action
import TxnStore.Catalog.Document
import TxnStore.Disk
import TxnStore.Text.Quoted

/-!
# Where the catalog is kept

A store holds committed entries and writes that are staged until they are committed together. It is
kept in memory, in memory that fails on demand, or in a document. The document is replaced as a
whole by each commit, so that a commit that fails leaves the document and the entries as they were.
-/

namespace TxnStore

/-- A write that waits to be committed. -/
inductive StagedWrite where
  | write (entry : CatalogEntry)
  | remove (key : ObjectKey)
deriving DecidableEq, Repr

/-- The table once a staged write takes effect. -/
def StagedWrite.applyTo (t : Table ObjectKey CatalogEntry) :
    StagedWrite → Table ObjectKey CatalogEntry
  | write e => t.insert e.key e
  | remove key => t.erase key

/-- The document of a store in the file system. -/
structure DocumentFile where
  path : String
  /-- Whether a document can be put there. -/
  writable : Bool
  /-- What lies there. -/
  item : DiskItem
deriving DecidableEq, Repr

/-- The calls of a store that are set to fail. -/
structure CatalogFaults where
  write : Bool
  remove : Bool
  commit : Bool
deriving DecidableEq, Repr

/-- What lies behind a store. -/
inductive CatalogBacking where
  | memory (faults : CatalogFaults)
  | document (file : DocumentFile)
deriving DecidableEq, Repr

structure CatalogStore where
  committed : Table ObjectKey CatalogEntry
  staged : List StagedWrite
  backing : CatalogBacking

namespace CatalogStore

def inMemory : CatalogStore := ⟨Table.empty, [], .memory ⟨false, false, false⟩⟩

instance : Inhabited CatalogStore := ⟨inMemory⟩

/-- The store of a document; one that is missing counts as empty. -/
def openFile (file : DocumentFile) : Except StoreError CatalogStore :=
  match file.item, file.item.bytes? with
  | .missing _, _ => .ok ⟨Table.empty, [], .document file⟩
  | _, none => .error (.device .host)
  | _, some bs =>
    match CatalogDocument.read bs with
    | .ok entries => .ok ⟨CatalogDocument.table entries, [], .document file⟩
    | .error e => .error e

/-- The committed entries in their order. -/
def entries (s : CatalogStore) : List CatalogEntry := s.committed.values

/-- Whether the store is in memory and a call of it is set to fail. -/
def isSetToFail (s : CatalogStore) (call : CatalogFaults → Bool) : Bool :=
  match s.backing with
  | .memory faults => call faults
  | .document _ => false

def stage (w : StagedWrite) (call : CatalogFaults → Bool) : Action CatalogStore Unit := do
  let s ← get
  if s.isSetToFail call then throw (.device .diskFull)
  set { s with staged := s.staged ++ [w] }

/-- Stages an entry, in place of the one of its kind and name. -/
def write (e : CatalogEntry) : Action CatalogStore Unit := stage (.write e) (·.write)

/-- Stages the removal of an entry, which may be absent. -/
def remove (key : ObjectKey) : Action CatalogStore Unit := stage (.remove key) (·.remove)

/-- The committed entries once the staged writes take effect. -/
def merged (s : CatalogStore) : Table ObjectKey CatalogEntry :=
  s.staged.foldl StagedWrite.applyTo s.committed

/-- The store with the staged writes committed. -/
def applied (s : CatalogStore) : CatalogStore := { s with committed := s.merged, staged := [] }

def replaceDocument (file : DocumentFile) (entries : List CatalogEntry) :
    Except StoreError DocumentFile :=
  if file.writable then
    .ok { file with item := .file (Text.toBytes (CatalogDocument.text entries)) }
  else .error (.device .host)

/-- Commits the staged writes. -/
def commit : Action CatalogStore Unit := do
  let s ← get
  match s.backing with
  | .memory faults =>
    if faults.commit then throw (.device .diskFull)
    set s.applied
  | .document file =>
    -- Without staged writes the document is left alone, even one that cannot be written.
    if s.staged.isEmpty then return
    match replaceDocument file s.merged.values with
    | .ok file => set { s.applied with backing := .document file }
    | .error e =>
      set { s with staged := [] }
      throw e

def rollback (s : CatalogStore) : CatalogStore := { s with staged := [] }

def document? (s : CatalogStore) : Option DocumentFile :=
  match s.backing with
  | .memory _ => none
  | .document file => some file

/-- The store with its document in another state; a store in memory stays as it is. -/
def setDocument (s : CatalogStore) (file : DocumentFile) : CatalogStore :=
  match s.backing with
  | .memory _ => s
  | .document _ => { s with backing := .document file }

/-- The text that shows a store kept in a document. -/
def debugText (s : CatalogStore) : String :=
  "FileCatalog \x7b path: " ++ Quoted.text ((s.document?.map (·.path)).getD "") ++ ", entries: " ++
    toString s.committed.size ++ " \x7d"

end CatalogStore

end TxnStore
