import TxnStore.Catalog.Store

/-!
# The catalog

Writes to the catalog are made in batches. A batch ends with its commit, or it is dropped: then, and
when the commit fails, what it staged is discarded. The catalog counts the entries written, the
batches committed and the batches discarded.
-/

namespace TxnStore

structure CatalogStats where
  writes : Nat
  commits : Nat
  rollbacks : Nat
deriving DecidableEq, Repr

/-- A catalog: a store and the count of what was done to it. -/
structure Catalog where
  store : CatalogStore
  stats : CatalogStats

structure CatalogBatch where
  catalog : Catalog
  /-- Whether something is staged that is neither committed nor discarded. -/
  dirty : Bool

namespace CatalogBatch

def onStore {α : Type} (a : Action CatalogStore α) : Action CatalogBatch α :=
  Action.onPart (·.catalog.store) (fun b s => { b with catalog := { b.catalog with store := s } }) a

/-- The batch after one more write was staged. -/
def counted (b : CatalogBatch) : CatalogBatch :=
  { catalog :=
      { b.catalog with stats := { b.catalog.stats with writes := b.catalog.stats.writes + 1 } }
    dirty := true }

/-- Stages an entry. -/
def write (e : CatalogEntry) : Action CatalogBatch Unit := do
  onStore (CatalogStore.write e)
  modify counted

/-- Stages the removal of an entry. -/
def remove (key : ObjectKey) : Action CatalogBatch Unit := do
  onStore (CatalogStore.remove key)
  modify counted

def discarded (b : CatalogBatch) : CatalogBatch :=
  { catalog :=
      { store := b.catalog.store.rollback
        stats := { b.catalog.stats with rollbacks := b.catalog.stats.rollbacks + 1 } }
    dirty := false }

def committed (b : CatalogBatch) : CatalogBatch :=
  { catalog :=
      { b.catalog with stats := { b.catalog.stats with commits := b.catalog.stats.commits + 1 } }
    dirty := false }

/-- Commits the batch; one that staged nothing has nothing to commit. -/
def commit : Action CatalogBatch Unit := do
  if (← get).dirty then
    match ← (onStore CatalogStore.commit).attempt with
    | .ok _ => modify committed
    | .error e =>
      modify discarded
      throw e

/-- Ends the batch; what it staged and did not commit is discarded. -/
def drop (b : CatalogBatch) : Catalog := if b.dirty then b.discarded.catalog else b.catalog

end CatalogBatch

namespace Catalog

/-- The catalog of a store to which nothing was done yet. -/
def ofStore (store : CatalogStore) : Catalog := ⟨store, ⟨0, 0, 0⟩⟩

def inMemory : Catalog := ofStore .inMemory

instance : Inhabited Catalog := ⟨inMemory⟩

def openFile (file : DocumentFile) : Except StoreError Catalog :=
  (CatalogStore.openFile file).map ofStore

/-- Runs a batch to its end and drops what it leaves staged. -/
def inBatch {α : Type} (a : Action CatalogBatch α) : Action Catalog α :=
  Action.mk fun c => let (r, b) := a.runOn ⟨c, false⟩; (r, b.drop)

/-- Writes one entry. -/
def persist (e : CatalogEntry) : Action Catalog Unit :=
  inBatch do
    CatalogBatch.write e
    CatalogBatch.commit

/-- Removes one entry. -/
def forget (key : ObjectKey) : Action Catalog Unit :=
  inBatch do
    CatalogBatch.remove key
    CatalogBatch.commit

/-- The committed entries in their order. -/
def entries (c : Catalog) : List CatalogEntry := c.store.entries

/-- The committed entry of a kind and a name. -/
def entry? (c : Catalog) (key : ObjectKey) : Option CatalogEntry :=
  c.entries.find? fun e => e.key = key

def debugText (c : Catalog) : String :=
  "CatalogSession \x7b stats: CatalogStats \x7b writes: " ++ toString c.stats.writes ++
    ", commits: " ++ toString c.stats.commits ++ ", rollbacks: " ++ toString c.stats.rollbacks ++
    " \x7d, .. \x7d"

end Catalog

end TxnStore
