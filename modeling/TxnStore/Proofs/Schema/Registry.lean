import TxnStore.Proofs.Sequences.Frames

/-!
# Schemas in step with their catalogs

A schema knows a sequence that is not temporary exactly when the catalog has an entry of it, and
each operation keeps this: a sequence is written before it is known, and its entry is removed before
it is forgotten. The sequence that numbers the objects is known by none of the names, and it has an
entry of its own that the others leave alone.
-/

namespace TxnStore

open TxnStore.Action

namespace Schema

/-- The number of an object, as it was drawn. -/
def objectIdOf (n : Int64) : ObjectId := ⟨UInt32.ofNat n.toInt.toNat⟩

/-- The attributes of the sequence that numbers the objects. -/
def objectIdsAttributes : SequenceDefinition :=
  ⟨⟨0⟩, objectIdsName, 0, 1, 1, 0xffffffff, defaultCacheSize, false, true, false⟩

/-- A sequence that a schema knows by a name, together with its catalog. -/
structure IsRegistered (catalog : Catalog) (name : String) (s : Sequence) : Prop where
  named : s.name = name
  free : name ≠ objectIdsName
  regular : s.IsRegular
  kept : s.temporary = false → StoredSequence.IsKept ⟨s, catalog⟩

/-- A schema that knows what its catalog has, with the numbers drawn for objects so far. -/
structure IsInStep (schema : Schema) (drawn : List Int64) : Prop where
  ready : schema.catalog.IsReady
  sorted : schema.catalog.store.committed.IsSorted
  distinct : schema.sequences.IsSorted
  numbers : ∃ m largest, IsSafe 1 ⟨schema.objectIds, schema.catalog⟩ drawn m ∧
    IsTight 1 ⟨schema.objectIds, schema.catalog⟩ m largest
  numbering : schema.objectIds.attributes = objectIdsAttributes
  within : ∀ v ∈ drawn, 1 ≤ v.toInt ∧ v.toInt ≤ 0xffffffff
  registered : ∀ {name s}, schema.sequences.get? name = some s →
    IsRegistered schema.catalog name s
  /-- Each entry of a sequence is that of a sequence known, or of the one that numbers objects. -/
  entries : ∀ {name e}, schema.catalog.store.committed.get? ⟨.sequence, name⟩ = some e →
    name = objectIdsName ∨ ∃ s, schema.sequences.get? name = some s ∧ s.temporary = false

/-! ## The sequence that numbers the objects -/

namespace IsInStep

variable {schema : Schema} {drawn : List Int64}

theorem name_objectIds (h : schema.IsInStep drawn) : schema.objectIds.name = objectIdsName :=
  congrArg SequenceDefinition.name h.numbering

theorem entryKey_objectIds (h : schema.IsInStep drawn) :
    schema.objectIds.entryKey = ⟨.sequence, objectIdsName⟩ :=
  congrArg (ObjectKey.mk .sequence) h.name_objectIds

/-- The sequence that numbers the objects is regular. -/
theorem regular_objectIds (h : schema.IsInStep drawn) : schema.objectIds.IsRegular := by
  obtain ⟨m, largest, hsafe, htight⟩ := h.numbers
  have hincrement : schema.objectIds.increment = 1 := hsafe.sound.increment
  obtain ⟨-, -, -, hmoves, hstep⟩ := htight.valid
  refine ⟨hincrement ▸ hmoves, hincrement ▸ hstep, hsafe.sound.cache, ?_⟩
  rw [Sequence.firstBound_eq, hincrement]
  exact htight.first

end IsInStep

theorem ne_entryKey {name name' : String} (h : name ≠ name') :
    ObjectKey.mk .sequence name ≠ ⟨.sequence, name'⟩ := fun heq =>
  h (congrArg ObjectKey.name heq)

/-- A sequence stays registered whose entry is left alone. -/
theorem IsRegistered.of_sameBut {c c' : Catalog} {name name' : String} {s : Sequence}
    (h : IsRegistered c name s) (hc : c.SameBut ⟨.sequence, name'⟩ c') (hne : name ≠ name') :
    IsRegistered c' name s := by
  obtain ⟨rfl, hfree, hregular, hkept⟩ := h
  exact ⟨rfl, hfree, hregular, fun htemporary =>
    (hkept htemporary).of_sameBut hc (ne_entryKey hne)⟩

namespace IsInStep

variable {schema : Schema} {drawn drawn' : List Int64}

/-- What the sequence that numbers the objects does leaves a schema in step. -/
theorem of_objectIds (h : schema.IsInStep drawn) {p : StoredSequence}
    (hitself : (StoredSequence.mk schema.objectIds schema.catalog).KeepsToItself p)
    (hattributes : p.sequence.attributes = schema.objectIds.attributes)
    (hnumbers : ∃ m largest, IsSafe 1 p drawn' m ∧ IsTight 1 p m largest)
    (hwithin : ∀ v ∈ drawn', 1 ≤ v.toInt ∧ v.toInt ≤ 0xffffffff) :
    ({ schema with objectIds := p.sequence, catalog := p.catalog } : Schema).IsInStep drawn' := by
  -- Only the entry of the sequence of numbers may have changed.
  have hsame : schema.catalog.SameBut ⟨.sequence, objectIdsName⟩ p.catalog :=
    h.entryKey_objectIds ▸ hitself.others
  exact
    { ready := hsame.ready
      sorted := hsame.sorted h.sorted
      distinct := h.distinct
      numbers := hnumbers
      numbering := hattributes.trans h.numbering
      within := hwithin
      registered := fun hs => (h.registered hs).of_sameBut hsame (h.registered hs).free
      entries := by
        intro name e he
        by_cases hname : name = objectIdsName
        · exact .inl hname
        · exact h.entries ((hsame.others _ (ne_entryKey hname)).symm.trans he) }

/-- What becomes of one name and of its entry leaves a schema in step if the name is known exactly
when it has an entry. -/
theorem of_sequences (h : schema.IsInStep drawn) {name : String} (hname : name ≠ objectIdsName)
    {catalog : Catalog} (hsame : schema.catalog.SameBut ⟨.sequence, name⟩ catalog)
    {sequences : Table String Sequence} (hdistinct : sequences.IsSorted) (known : Option Sequence)
    (hget : ∀ j, sequences.get? j = if j = name then known else schema.sequences.get? j)
    (hknown : ∀ s, known = some s → IsRegistered catalog name s)
    (hentry : ∀ e, catalog.store.committed.get? ⟨.sequence, name⟩ = some e →
      ∃ s, known = some s ∧ s.temporary = false) :
    ({ schema with sequences, catalog } : Schema).IsInStep drawn := by
  -- Only the entry under the name may have changed, and the sequence of numbers goes by another.
  have hkey : schema.objectIds.entryKey ≠ ⟨.sequence, name⟩ :=
    h.entryKey_objectIds ▸ ne_entryKey hname.symm
  exact
    { ready := hsame.ready
      sorted := hsame.sorted h.sorted
      distinct := hdistinct
      numbers := by
        obtain ⟨m, largest, hsafe, htight⟩ := h.numbers
        exact ⟨m, largest, hsafe.of_sameBut hsame hkey, htight.onCatalog catalog⟩
      numbering := h.numbering
      within := h.within
      registered := by
        intro j s hs
        rw [hget] at hs
        split at hs
        · next hj =>
          subst hj
          exact hknown s hs
        · next hj => exact (h.registered hs).of_sameBut hsame hj
      entries := by
        intro j e he
        show j = objectIdsName ∨ ∃ s, sequences.get? j = some s ∧ s.temporary = false
        rw [hget]
        split
        · next hj =>
          subst hj
          exact .inr (hentry e he)
        · next hj => exact h.entries ((hsame.others _ (ne_entryKey hj)).symm.trans he) }

/-- A name without an entry is unknown or temporary. -/
theorem isTemporary_of_entry? (h : schema.IsInStep drawn) {name : String} {s : Sequence}
    (hs : schema.sequences.get? name = some s) (htemporary : s.temporary = true) :
    schema.catalog.store.committed.get? ⟨.sequence, name⟩ = none := by
  -- An entry would belong to a lasting sequence of the same name.
  cases hentry : schema.catalog.store.committed.get? ⟨.sequence, name⟩ with
  | none => rfl
  | some e =>
    rcases h.entries hentry with hreserved | ⟨t, ht, hkept⟩
    · exact absurd hreserved (h.registered hs).free
    · rw [hs] at ht
      obtain rfl := Option.some.inj ht
      rw [htemporary] at hkept
      cases hkept

end IsInStep

end Schema

end TxnStore
