import TxnStore.Workspace

/-!
# Schemas and sequences of a workspace

A workspace knows sequences by names: those of its schema, and others that were made or taken up
beside it. A sequence that the schema drops stays known, with the state that it had.
-/

namespace TxnStore.Workspace

/-- Runs an action on a schema of the workspace. -/
def onSchema {α : Type} (h : HeldSchema) (a : Action Schema α) : Action Workspace α :=
  Action.onPart (fun w => { h.schema with catalog := w.catalogAt h.catalog })
    (fun w s => { w.setCatalog h.catalog s.catalog with schema := some { h with schema := s } }) a

/-- Opens a schema over the catalog in use, and knows its sequences by their own names alone. The
schema and the sequences known before are forgotten even if there is no new schema. -/
def openSchema (defaultCache : Int64) : Action Workspace Schema := do
  modify fun w => { w with schema := none, sequences := Table.empty }
  let schema ← onCatalog (Action.mk (Schema.openWithCache defaultCache))
  modify fun w =>
    { w with
      schema := some ⟨schema, w.current⟩
      sequences :=
        Table.ofList (schema.sequences.toList.map fun (name, s) => (s.name, .registered name)) }
  return schema

/-- Creates a sequence in the schema and knows it by its name. -/
def createInSchema (h : HeldSchema) (name : String) (a : Action Schema Sequence) :
    Action Workspace Sequence := do
  let s ← onSchema h a
  modify fun w => { w with sequences := w.sequences.insert name (.registered name) }
  return s

/-- A known sequence once the schema has dropped the sequence of a name. -/
def released (h : HeldSchema) (name : String) : KnownSequence → KnownSequence
  | .registered n =>
    match h.schema.sequences.get? name with
    | some s => if n = name then .free s h.catalog else .registered n
    | none => .registered n
  | known => known

/-- Drops a sequence of the schema, which stays known. -/
def dropInSchema (h : HeldSchema) (name : String) (a : Action Schema Unit) :
    Action Workspace Unit := do
  onSchema h a
  modify fun w =>
    { w with sequences := ⟨w.sequences.toList.map fun e => (e.1, released h name e.2)⟩ }

def sequence? (w : Workspace) (name : String) : Option Sequence :=
  match w.sequences.get? name with
  | some (.free s _) => some s
  | some (.registered key) => w.schema.bind fun h => h.schema.sequences.get? key
  | none => none

/-- Runs an action on a known sequence and its catalog. -/
def onSequence {α : Type} (name : String) (s : Sequence) (a : Action StoredSequence α) :
    Action Workspace α := do
  let w ← get
  match w.sequences.get? name, w.schema with
  | some (.free _ i), _ =>
    Action.onPart (fun w => ⟨s, w.catalogAt i⟩)
      (fun w p =>
        { w.setCatalog i p.catalog with
          sequences := w.sequences.insert name (.free p.sequence i) }) a
  | some (.registered key), some h => onSchema h (Schema.onSequence key s a)
  | _, _ => throw (.sequenceNotFound name)

/-- Knows a sequence by a name, beside the schema. -/
def addSequence (name : String) (made : Except StoreError Sequence) : Action Workspace Unit := do
  let s ← Action.ofExcept made
  modify fun w => { w with sequences := w.sequences.insert name (.free s w.current) }

/-- Changes a known sequence alone. -/
def setSequence (w : Workspace) (name : String) (s : Sequence) : Workspace :=
  match w.sequences.get? name, w.schema with
  | some (.free _ i), _ => { w with sequences := w.sequences.insert name (.free s i) }
  | some (.registered key), some h =>
    let schema := { h.schema with sequences := h.schema.sequences.modify key fun _ => s }
    { w with schema := some { h with schema } }
  | _, _ => w

/-- Draws numbers from a known sequence one after the other. -/
def draw (name : String) : (n : Nat) → Action Workspace (List (Except StoreError Int64))
  | 0 => return []
  | n + 1 => do
    match (← get).sequence? name with
    | none => return []
    | some s =>
      let r ← (onSequence name s StoredSequence.next).attempt
      return r :: (← draw name n)

/-- A definition of a sequence that the catalog in use holds. -/
def definition? (w : Workspace) (name : String) : Option SequenceDefinition :=
  match w.catalog.entry? ⟨.sequence, name⟩ with
  | some ⟨_, _, .sequence d⟩ => some d
  | _ => none

/-! ## Batches -/

/-- Stages a margin of a known sequence in a batch. -/
def stageMargin (name : String) (s : Sequence) (target : Int64) :
    Action (Workspace × CatalogBatch) Unit :=
  Action.onPart (fun p => (s, p.2)) (fun p q => (p.1.setSequence name q.1, q.2))
    (Sequence.flushWith target.toInt)

/-- Runs a batch over the catalog in use to its end. -/
def inBatch {α : Type} (a : Action (Workspace × CatalogBatch) α) : Action Workspace α :=
  Action.mk fun w =>
    let (r, w, b) := a.runOn (w, ⟨w.catalog, false⟩)
    (r, w.setCatalog w.current b.drop)

end TxnStore.Workspace
