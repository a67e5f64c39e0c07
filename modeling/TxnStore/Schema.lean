import TxnStore.Sequence
import TxnStore.Settings

/-!
# The schema

A schema names the sequences of a catalog and numbers its objects. The numbers come from a sequence
of its own, which is kept in the catalog beside the others under a reserved name.
-/

namespace TxnStore

/-- The sequences of a catalog. -/
structure Schema where
  catalog : Catalog
  /-- How many numbers a sequence reserves at a time unless it is told otherwise. -/
  defaultCache : Int64
  sequences : Table String Sequence
  /-- The sequence that numbers the objects. -/
  objectIds : Sequence

namespace Schema

/-- The reserved name of the sequence that numbers the objects. -/
def objectIdsName : String := "__object_ids"

/-- The options of the sequence that numbers the objects. -/
def objectIdsOptions : SequenceOptions :=
  { SequenceOptions.basic with
    start := some 1
    minValue := some 1
    maxValue := some 0xffffffff
    belongsToTable := true }

/-- The sequences among entries, by the names of their entries. -/
def recoverAll : List CatalogEntry → Except StoreError (List (String × Sequence))
  | [] => .ok []
  | e :: rest =>
    match e.object with
    | .map _ => recoverAll rest
    | .sequence d =>
      match Sequence.recover d with
      | .error err => .error err
      | .ok s =>
        match recoverAll rest with
        | .error err => .error err
        | .ok more => .ok ((e.name, s) :: more)

/-- A new sequence that numbers the objects, stored in the catalog. -/
def createObjectIds : Action Catalog Sequence := do
  let s ← Action.ofExcept
    (Sequence.create ⟨0⟩ objectIdsName objectIdsOptions defaultCacheSize)
  Catalog.persist (.ofSequence s.definition)
  return s

/-- Takes up the sequences of a catalog. The schema comes without the catalog. -/
def openOn (defaultCache : Int64) : Action Catalog (Catalog → Schema) := do
  let found ← Action.ofExcept (recoverAll (← get).entries)
  let named := found.filter fun e => e.1 ≠ objectIdsName
  let objectIds ←
    match (found.filter fun e => e.1 = objectIdsName).getLast? with
    | some (_, s) => pure s
    | none => createObjectIds
  return fun catalog =>
    { catalog, objectIds
      defaultCache := max defaultCache 1
      sequences := Table.ofList named }

/-- Takes up the sequences of a catalog, with the numbers that a sequence reserves at a time. -/
def openWithCache (defaultCache : Int64) (catalog : Catalog) :
    Except StoreError Schema × Catalog :=
  match (openOn defaultCache).runOn catalog with
  | (.ok schema, catalog) => (.ok (schema catalog), catalog)
  | (.error e, catalog) => (.error e, catalog)

def onCatalog {α : Type} (a : Action Catalog α) : Action Schema α :=
  Action.onPart (·.catalog) (fun s c => { s with catalog := c }) a

/-- An action on the sequence that numbers the objects. -/
def onObjectIds {α : Type} (a : Action StoredSequence α) : Action Schema α :=
  Action.onPart (fun s => ⟨s.objectIds, s.catalog⟩)
    (fun s p => { s with objectIds := p.sequence, catalog := p.catalog }) a

def onSequence {α : Type} (name : String) (sequence : Sequence) (a : Action StoredSequence α) :
    Action Schema α :=
  Action.onPart (fun s => ⟨sequence, s.catalog⟩)
    (fun s p =>
      { s with sequences := s.sequences.modify name fun _ => p.sequence, catalog := p.catalog }) a

/-- The number of a new object. -/
def nextObjectId : Action Schema ObjectId := do
  let n ← onObjectIds StoredSequence.next
  if 0 ≤ n.toInt ∧ n.toInt < 0x100000000 then return ⟨UInt32.ofNat n.toInt.toNat⟩
  throw (.invalid .objectIdRange)

/-- Creates a sequence and stores it unless it is temporary. -/
def createSequence (name : String) (options : SequenceOptions) : Action Schema Sequence := do
  if name = objectIdsName then throw (.invalid .reservedSequenceName)
  let schema ← get
  if schema.sequences.contains name then throw (.sequenceExists name)
  -- Options that make no sequence are to use up no object number.
  let _ ← Action.ofExcept (options.definition ⟨0⟩ name schema.defaultCache)
  let id ← nextObjectId
  let s ← Action.ofExcept (Sequence.create id name options schema.defaultCache)
  -- The catalog first: if it fails, the schema does not know the sequence either.
  if !s.temporary then onCatalog (Catalog.persist (.ofSequence s.definition))
  modify fun schema => { schema with sequences := schema.sequences.insert name s }
  return s

/-- Creates the sequence that numbers the rows of a table. -/
def createTableSequence (name : String) (start increment : Int64) : Action Schema Sequence :=
  createSequence name
    { SequenceOptions.basic with
      start := some start
      increment := some increment
      belongsToTable := true }

/-- Removes a sequence, first from the catalog and then from the schema. -/
def removeSequence (name : String) (s : Sequence) : Action Schema Unit := do
  if !s.temporary then onCatalog (Catalog.forget ⟨.sequence, name⟩)
  modify fun schema => { schema with sequences := schema.sequences.erase name }

/-- Drops a sequence that stands for itself; one that numbers the rows of a table is refused. -/
def dropSequence (name : String) : Action Schema Unit := do
  match (← get).sequences.get? name with
  | none => throw (.sequenceNotFound name)
  | some s => if s.belongsToTable then throw (.invalid .tableSequence) else removeSequence name s

def dropTableSequence (name : String) : Action Schema Unit := do
  match (← get).sequences.get? name with
  | none => throw (.sequenceNotFound name)
  | some s => removeSequence name s

/-- The sequences in the order of their own names, with the names by which the schema finds them. -/
def ordered (s : Schema) : List (String × Sequence) :=
  s.sequences.toList.mergeSort fun a b => compare a.2.name b.2.name != .gt

/-- Closes sequences one after the other up to the first that fails. -/
def closeAll : List (String × Sequence) → Action Schema Unit
  | [] => pure ()
  | (name, s) :: rest => do
    onSequence name s StoredSequence.close
    closeAll rest

/-- Closes all sequences, and last the one that numbers the objects. -/
def close : Action Schema Unit := do
  closeAll (← get).ordered
  onObjectIds StoredSequence.close

def debugText (s : Schema) : String :=
  "Schema \x7b sequences: " ++ toString s.sequences.size ++ ", default_cache: " ++
    toString s.defaultCache.toInt ++ ", .. \x7d"

end Schema

end TxnStore
