import TxnStore.Proofs.Catalog.Batches
import TxnStore.Proofs.Catalog.Order
import TxnStore.Proofs.Json.Documents

/-!
# The document that is written and read

The entries of a catalog are read as they were written, whatever their names, numbers and attributes
are. The mark of a sequence that has passed the words is written only where it is set, and a
document without it says that it is not.
-/

namespace TxnStore

namespace Json

/-! ## Plain parts -/

theorem isPlain_struct {members : List (String × Json)} (h : ∀ m ∈ members, m.2.isPlain = true) :
    (struct members).isPlain = true := by
  show membersPlain (members.map fun m => (some m.1, m.2)) = true
  induction members with
  | nil => rfl
  | cons m rest ih =>
    rw [List.map_cons, membersPlain, h m List.mem_cons_self,
      ih fun m' hm' => h m' (List.mem_cons_of_mem _ hm')]
    rfl

theorem isPlain_array {items : List Json} (h : ∀ j ∈ items, j.isPlain = true) :
    (array items).isPlain = true := by
  show itemsPlain items = true
  induction items with
  | nil => rfl
  | cons j rest ih =>
    rw [itemsPlain, h j List.mem_cons_self, ih fun j' hj' => h j' (List.mem_cons_of_mem _ hj')]
    rfl

theorem isPlain_int64 (v : Int64) : (int v.toInt).isPlain = true := by
  have hlow := v.le_toInt
  have hhigh := v.toInt_lt
  rw [int, isPlain, decide_eq_true_eq]
  show v.toInt.natAbs < 2 ^ 64
  omega

theorem isPlain_uint32 (v : UInt32) : (int v.toNat).isPlain = true := by
  have hhigh := v.toNat_lt
  rw [int, isPlain, decide_eq_true_eq]
  show (v.toNat : Int).natAbs < 2 ^ 64
  omega

/-! ## Reading parts -/

theorem toInt64?_int (v : Int64) : (int v.toInt).toInt64? = some v := by
  have hlow := v.le_toInt
  have hhigh := v.toInt_lt
  rw [toInt64?, int, toInt?, if_pos (by omega), Option.map_some, Int64.ofInt_toInt]

theorem toUInt32?_int (v : UInt32) : (int v.toNat).toUInt32? = some v := by
  have hhigh := v.toNat_lt
  rw [toUInt32?, int, toInt?, if_pos (by omega), Option.map_some, Int.toNat_natCast,
    UInt32.ofNat_toNat]

end Json

/-! ## Entries -/

namespace SequenceDefinition

theorem isPlain_members (d : SequenceDefinition) : ∀ m ∈ d.members, m.2.isPlain = true := by
  have hid := Json.isPlain_uint32 d.id.val
  have htext : ∀ s, (Json.text s).isPlain = true := fun _ => rfl
  have hbool : ∀ b, (Json.bool b).isPlain = true := fun _ => rfl
  unfold members
  cases d.exhausted with
  | false => simp [hid, htext, hbool, Json.isPlain_int64]
  | true => simp [hid, htext, hbool, Json.isPlain_int64]

/-- A definition is read from its own members. -/
theorem ofJson?_members (d : SequenceDefinition) :
    ofJson? (.object (d.members.map fun m => (some m.1, m.2))) = some d := by
  have hid := Json.toUInt32?_int d.id.val
  have htext : ∀ s, (Json.text s).toText? = some s := fun _ => rfl
  have hbool : ∀ b, (Json.bool b).toBool? = some b := fun _ => rfl
  -- The members are told apart by their names.
  have hfields : (Json.object (d.members.map fun m => (some m.1, m.2))).fields? memberNames =
      some [some (.int d.id.val.toNat), some (.text d.name), some (.int d.start.toInt),
        some (.int d.increment.toInt), some (.int d.minValue.toInt), some (.int d.maxValue.toInt),
        some (.int d.cacheSize.toInt), some (.bool d.cycle), some (.bool d.belongsToTable),
        if d.exhausted then some (.bool true) else none] := by
    unfold members
    cases d.exhausted with
    | false => simp [Json.fields?, Json.field?, memberNames]
    | true => simp [Json.fields?, Json.field?, memberNames]
  -- Where the mark is missing, it is read as not set.
  have hexhausted : ((if d.exhausted then some (.bool true) else none : Option Json).getD
      (.bool false)).toBool? = some d.exhausted := by
    cases d.exhausted with
    | false => rfl
    | true => rfl
  rw [ofJson?, hfields]
  simp only [Option.bind_eq_bind, Option.bind_some, hid, htext, hbool, Json.toInt64?_int,
    hexhausted]
  rfl

end SequenceDefinition

namespace MapDefinition

theorem isPlain_members (d : MapDefinition) : ∀ m ∈ d.members, m.2.isPlain = true := by
  have htext : ∀ s, (Json.text s).isPlain = true := fun _ => rfl
  simp [members, htext]

/-- A definition is read from its own members. -/
theorem ofJson?_members (d : MapDefinition) :
    ofJson? (.object (d.members.map fun m => (some m.1, m.2))) = some d := by
  have htext : ∀ s, (Json.text s).toText? = some s := fun _ => rfl
  have hfields : (Json.object (d.members.map fun m => (some m.1, m.2))).fields?
      ["key_codec", "value_codec"] = some [some (.text d.keyCodec), some (.text d.valueCodec)] := by
    simp [members, Json.fields?, Json.field?]
  rw [ofJson?, hfields]
  simp only [Option.bind_eq_bind, Option.bind_some, htext]
  rfl

end MapDefinition

namespace CatalogObject

variable (o : CatalogObject)

theorem isPlain_members : ∀ m ∈ o.members, m.2.isPlain = true := by
  cases o with
  | sequence d => exact d.isPlain_members
  | map d => exact d.isPlain_members

theorem isPlain_toJson : o.toJson.isPlain = true := by
  refine Json.isPlain_struct fun m hm => ?_
  rcases List.mem_cons.mp hm with rfl | hm
  · rfl
  · exact o.isPlain_members m hm

theorem ofName?_name : ObjectKind.ofName? o.kind.name = some o.kind := by
  cases o with
  | sequence d => rfl
  | map d => rfl

/-- The rest of an object is what it defines, once its kind is taken off. -/
theorem ofContent?_members :
    ofContent? (some o.kind) (.object (o.members.map fun m => (some m.1, m.2))) = some o := by
  cases o with
  | sequence d => simp only [kind, ofContent?, members, d.ofJson?_members, Option.map_some]
  | map d => simp only [kind, ofContent?, members, d.ofJson?_members, Option.map_some]

/-- No member of a definition is called a kind. -/
theorem ne_type_of_mem : ∀ m ∈ o.members, m.1 ≠ "type" := by
  cases o with
  | sequence d =>
    unfold members SequenceDefinition.members
    cases d.exhausted with
    | false => simp
    | true => simp
  | map d => simp [members, MapDefinition.members]

/-- All members of a definition are single values. -/
theorem depth_members : ∀ m ∈ o.members, m.2.depth = 0 := by
  cases o with
  | sequence d =>
    unfold members SequenceDefinition.members
    cases d.exhausted with
    | false => simp [Json.text, Json.int, Json.depth]
    | true => simp [Json.text, Json.int, Json.depth]
  | map d => simp [members, MapDefinition.members, Json.text, Json.depth]

theorem depth_toJson : o.toJson.depth = 1 := by
  have hmembers := o.depth_members
  show Json.membersDepth ((("type", Json.text o.kind.name) :: o.members).map
    fun m => (some m.1, m.2)) + 1 = 1
  rw [List.map_cons, Json.membersDepth, Json.membersDepth_eq_zero hmembers]
  rfl

/-- What an entry defines is read as it was written. -/
theorem ofJson?_toJson : ofJson? o.toJson = some o := by
  -- The document is neither too deep nor has it anything that cannot be read.
  have hdepth : outerDepth + o.toJson.depth ≤ Json.maxDepth := by
    rw [o.depth_toJson]
    decide
  have hreadable := Json.isReadable_of_isPlain o.isPlain_toJson
  have hne := o.ne_type_of_mem
  -- The kind is the only member of its name, and the others are left.
  have hkind : (o.members.map fun m => ((some m.1, m.2) : Option String × Json)).filter
      (fun m => m.1 = some "type") = [] := by
    rw [List.filter_eq_nil_iff]
    intro m hm
    obtain ⟨m', hm', rfl⟩ := List.mem_map.mp hm
    simp [hne m' hm']
  have hrest : (o.members.map fun m => ((some m.1, m.2) : Option String × Json)).filter
      (fun m => m.1 ≠ some "type") = o.members.map fun m => (some m.1, m.2) := by
    rw [List.filter_eq_self]
    intro m hm
    obtain ⟨m', hm', rfl⟩ := List.mem_map.mp hm
    simp [hne m' hm']
  have hfield : Json.field? "type" ((some "type", .string (some o.kind.name)) ::
      o.members.map fun m => (some m.1, m.2)) =
        some (some (.string (some o.kind.name))) := by
    rw [Json.field?, List.filter_cons_of_pos (by simp), hkind]
  have hjson : o.toJson = .object ((some "type", .string (some o.kind.name)) ::
      o.members.map fun m => (some m.1, m.2)) := rfl
  unfold ofJson?
  rw [if_pos ⟨hdepth, hreadable⟩, hjson]
  simp only [hfield]
  rw [List.filter_cons_of_neg (by simp), hrest, o.ofName?_name, o.ofContent?_members]

end CatalogObject

namespace CatalogEntry

variable (e : CatalogEntry)

theorem isPlain_toJson : e.toJson.isPlain = true := by
  have hid := Json.isPlain_uint32 e.id.val
  have hobject := e.object.isPlain_toJson
  have htext : (Json.text e.name).isPlain = true := rfl
  exact Json.isPlain_struct (by simp [hid, htext, hobject])

/-- An entry is read as it was written. -/
theorem ofJson?_toJson : ofJson? e.toJson = some e := by
  have hid := Json.toUInt32?_int e.id.val
  have htext : (Json.text e.name).toText? = some e.name := rfl
  have hfields : e.toJson.fields? ["id", "name", "object"] =
      some [some (.int e.id.val.toNat), some (.text e.name), some e.object.toJson] := by
    simp [toJson, Json.struct, Json.fields?, Json.field?]
  rw [ofJson?, hfields]
  simp only [Option.bind_eq_bind, Option.bind_some, hid, htext, e.object.ofJson?_toJson]
  rfl

end CatalogEntry

/-! ## Documents -/

namespace CatalogDocument

variable (entries : List CatalogEntry)

theorem isPlain_toJson : (toJson entries).isPlain = true := by
  have hversion : (Json.int version).isPlain = true := rfl
  have hentries : (Json.array (entries.map CatalogEntry.toJson)).isPlain = true := by
    refine Json.isPlain_array fun j hj => ?_
    obtain ⟨e, -, rfl⟩ := List.mem_map.mp hj
    exact e.isPlain_toJson
  exact Json.isPlain_struct (by simp [hversion, hentries])

theorem mapM_ofJson?_toJson :
    (entries.map CatalogEntry.toJson).mapM CatalogEntry.ofJson? = some entries := by
  induction entries with
  | nil => rfl
  | cons e rest ih =>
    rw [List.map_cons, List.mapM_cons, e.ofJson?_toJson, ih]
    rfl

theorem ofJson?_toJson : ofJson? (toJson entries) = some (version, entries) := by
  -- Both fields are there once.
  have hfields : (toJson entries).fields? ["version", "entries"] =
      some [some (.int version), some (.array (entries.map CatalogEntry.toJson))] := by
    simp [toJson, Json.struct, Json.fields?, Json.field?]
  have hitems : (Json.array (entries.map CatalogEntry.toJson)).toItems? =
      some (entries.map CatalogEntry.toJson) := rfl
  have hversion : (Json.int version).toUInt32? = some 1 := rfl
  rw [ofJson?, hfields]
  simp only [Option.bind_eq_bind, Option.bind_some, hversion, hitems, mapM_ofJson?_toJson]
  rfl

/-- A stored document is read as it was written. -/
theorem read_text : read (Text.toBytes (text entries)) = .ok entries := by
  rw [read, text, Json.ofBytes?_pretty (isPlain_toJson entries), Option.bind_some,
    ofJson?_toJson]
  exact if_pos rfl

/-- A catalog lists its entries in such a way that they are filed again as they were. -/
theorem table_values {t : Table ObjectKey CatalogEntry} (hsorted : t.IsSorted) (hfiled : Filed t) :
    table t.values = t := by
  have hentries : t.values.map (fun e => (e.key, e)) = t.toList := by
    rw [Table.values, List.map_map]
    refine (List.map_congr_left fun b hb => ?_).trans (List.map_id _)
    exact Prod.ext (hfiled b hb) rfl
  rw [table, hentries, Table.ofList_toList hsorted]

end CatalogDocument

end TxnStore
