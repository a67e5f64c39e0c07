import TxnStore.Catalog.Entry
import TxnStore.Json.Printer
import TxnStore.Json.Reader
import TxnStore.Table

/-!
# The catalog's document

The catalog is stored as one JSON document: a version and the list of entries. Each entry carries
what it defines as an object with its kind under `type`. Reading takes the members of a record in
any order and passes over members that it does not know; every known member but `exhausted` must be
there. -/

namespace TxnStore

namespace SequenceDefinition

/-- The members of a definition, in their order. -/
def members (d : SequenceDefinition) : List (String × Json) :=
  [("id", .int d.id.val.toNat), ("name", .text d.name), ("start", .int d.start.toInt),
    ("increment", .int d.increment.toInt), ("min_value", .int d.minValue.toInt),
    ("max_value", .int d.maxValue.toInt), ("cache_size", .int d.cacheSize.toInt),
    ("cycle", .bool d.cycle), ("belongs_to_table", .bool d.belongsToTable)] ++
    if d.exhausted then [("exhausted", .bool true)] else []

def memberNames : List String :=
  ["id", "name", "start", "increment", "min_value", "max_value", "cache_size", "cycle",
    "belongs_to_table", "exhausted"]

/-- The definition of a document. -/
def ofJson? (j : Json) : Option SequenceDefinition := do
  match ← j.fields? memberNames with
  | [some id, some name, some start, some increment, some minValue, some maxValue, some cacheSize,
      some cycle, some belongsToTable, exhausted] =>
    return {
      id := ⟨← id.toUInt32?⟩
      name := ← name.toText?
      start := ← start.toInt64?
      increment := ← increment.toInt64?
      minValue := ← minValue.toInt64?
      maxValue := ← maxValue.toInt64?
      cacheSize := ← cacheSize.toInt64?
      cycle := ← cycle.toBool?
      belongsToTable := ← belongsToTable.toBool?
      exhausted := ← (exhausted.getD (.bool false)).toBool? }
  | _ => none

def ofText (s : String) : Except StoreError SequenceDefinition :=
  match (Json.ofText? s).bind ofJson? with
  | some d => .ok d
  | none => .error .malformed

end SequenceDefinition

namespace MapDefinition

/-- The members of a definition, in their order. -/
def members (d : MapDefinition) : List (String × Json) :=
  [("key_codec", .text d.keyCodec), ("value_codec", .text d.valueCodec)]

/-- The definition of a document. -/
def ofJson? (j : Json) : Option MapDefinition := do
  match ← j.fields? ["key_codec", "value_codec"] with
  | [some keyCodec, some valueCodec] => return ⟨← keyCodec.toText?, ← valueCodec.toText?⟩
  | _ => none

end MapDefinition

namespace CatalogObject

/-- The members of what an entry defines. -/
def members : CatalogObject → List (String × Json)
  | sequence d => d.members
  | map d => d.members

/-- The document of what an entry defines. -/
def toJson (o : CatalogObject) : Json := .struct (("type", .text o.kind.name) :: o.members)

/-- What a document defines whose kind is known. -/
def ofContent? (kind : Option ObjectKind) (content : Json) : Option CatalogObject :=
  match kind with
  | some .sequence => (SequenceDefinition.ofJson? content).map sequence
  | some .map => (MapDefinition.ofJson? content).map map
  | none => none

/-- How many arrays and objects lie around what an entry defines. -/
def outerDepth : Nat := 3

/-- What a document defines. The kind is the member `type`, or the first item of an array; the rest
is held until the kind is known, and must be readable for that. -/
def ofJson? (j : Json) : Option CatalogObject :=
  if outerDepth + j.depth ≤ Json.maxDepth ∧ j.isReadable = true then
    match j with
    | .object members =>
      match Json.field? "type" members with
      | some (some (.string (some kind))) =>
        ofContent? (ObjectKind.ofName? kind) (.object (members.filter fun m => m.1 ≠ some "type"))
      | _ => none
    | .array (.string (some kind) :: rest) => ofContent? (ObjectKind.ofName? kind) (.array rest)
    | _ => none
  else none

end CatalogObject

namespace CatalogEntry

/-- The document of an entry. -/
def toJson (e : CatalogEntry) : Json :=
  .struct [("id", .int e.id.val.toNat), ("name", .text e.name), ("object", e.object.toJson)]

/-- The entry of a document. -/
def ofJson? (j : Json) : Option CatalogEntry := do
  match ← j.fields? ["id", "name", "object"] with
  | [some id, some name, some object] =>
    return ⟨⟨← id.toUInt32?⟩, ← name.toText?, ← CatalogObject.ofJson? object⟩
  | _ => none

end CatalogEntry

namespace CatalogDocument

/-- The version of the documents that are written and read. -/
def version : Nat := 1

def toJson (entries : List CatalogEntry) : Json :=
  .struct [("version", .int version), ("entries", .array (entries.map CatalogEntry.toJson))]

def text (entries : List CatalogEntry) : String := (toJson entries).pretty

def ofJson? (j : Json) : Option (Nat × List CatalogEntry) := do
  match ← j.fields? ["version", "entries"] with
  | [some version, some entries] =>
    return ((← version.toUInt32?).toNat, ← (← entries.toItems?).mapM CatalogEntry.ofJson?)
  | _ => none

def read (bs : List UInt8) : Except StoreError (List CatalogEntry) :=
  match (Json.ofBytes? bs).bind ofJson? with
  | none => .error .malformed
  | some (v, entries) =>
    if v = version then .ok entries else .error (.catalog (.documentVersion v))

/-- The entries as the catalog lists them; of two of one kind and name the later counts. -/
def table (entries : List CatalogEntry) : Table ObjectKey CatalogEntry :=
  Table.ofList (entries.map fun e => (e.key, e))

end CatalogDocument

end TxnStore
