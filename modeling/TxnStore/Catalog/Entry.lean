import TxnStore.Sequence.Definition

/-!
# Entries of the catalog

The catalog holds what lasts beyond a run: the definitions of sequences and of maps. An entry is
known by its kind and its name, and entries are listed sequences first, then by name.
-/

namespace TxnStore

/-- The kinds of entries, in the order in which they are listed. -/
inductive ObjectKind where
  | sequence | map
deriving DecidableEq, Repr

namespace ObjectKind

/-- The word for a kind. -/
def name : ObjectKind → String
  | sequence => "sequence"
  | map => "map"

/-- The kind that a word stands for. -/
def ofName? (s : String) : Option ObjectKind :=
  if s = "sequence" then some sequence else if s = "map" then some map else none

/-- The place of a kind in the order of kinds. -/
def rank : ObjectKind → Nat
  | sequence => 0
  | map => 1

end ObjectKind

/-- What an entry is known by. -/
structure ObjectKey where
  kind : ObjectKind
  name : String
deriving DecidableEq, Repr

instance : Ord ObjectKey :=
  ⟨fun a b => (compare a.kind.rank b.kind.rank).then (compare a.name b.name)⟩

/-- The codecs of a map, by name. -/
structure MapDefinition where
  keyCodec : String
  valueCodec : String
deriving DecidableEq, Repr

/-- What an entry defines. -/
inductive CatalogObject where
  | sequence (definition : SequenceDefinition)
  | map (definition : MapDefinition)
deriving DecidableEq, Repr

def CatalogObject.kind : CatalogObject → ObjectKind
  | sequence _ => .sequence
  | map _ => .map

structure CatalogEntry where
  id : ObjectId
  name : String
  object : CatalogObject
deriving DecidableEq, Repr

namespace CatalogEntry

def kind (e : CatalogEntry) : ObjectKind := e.object.kind

/-- What an entry is known by. -/
def key (e : CatalogEntry) : ObjectKey := ⟨e.kind, e.name⟩

def ofSequence (d : SequenceDefinition) : CatalogEntry := ⟨d.id, d.name, .sequence d⟩

def ofMap (id : ObjectId) (name : String) (d : MapDefinition) : CatalogEntry := ⟨id, name, .map d⟩

end CatalogEntry

end TxnStore
