import TxnStore.Proofs.Sequences.Safety

/-!
# Sequences that are created

A schema that creates a sequence stores it as it is before it hands out anything. So nothing was
handed out that the catalog does not know of, and nothing is reserved.
-/

namespace TxnStore

open TxnStore.Action

/-! ## Options -/

/-- The definition that options come to makes a sequence. -/
theorem SequenceOptions.valid_of_definition {options : SequenceOptions} {id : ObjectId}
    {name : String} {defaultCache : Int64} {d : SequenceDefinition}
    (h : options.definition id name defaultCache = .ok d) :
    AttributesValid d.start d.minValue d.maxValue d.increment ∧ d.exhausted = false ∧
      d.cycle = options.cycle := by
  simp only [definition] at h
  generalize options.start.getD _ = start at h
  split at h
  · next hvalid =>
    obtain rfl := Except.ok.inj h
    exact ⟨hvalid, rfl, rfl⟩
  · cases h

theorem SequenceOptions.name_of_definition {options : SequenceOptions} {id : ObjectId}
    {name : String} {cache : Int64} {d : SequenceDefinition}
    (h : options.definition id name cache = .ok d) : d.name = name := by
  simp only [definition] at h
  generalize options.start.getD _ = start at h
  split at h
  · obtain rfl := Except.ok.inj h
    rfl
  · cases h

/-- A sequence that is made is that of the definition that its options come to. -/
theorem Sequence.eq_of_create {id : ObjectId} {name : String} {options : SequenceOptions}
    {defaultCache : Int64} {s : Sequence} (h : create id name options defaultCache = .ok s)
    (htemporary : options.temporary = false) :
    ∃ d, options.definition id name defaultCache = .ok d ∧ s = ofDefinition d := by
  unfold create at h
  split at h
  · next d hdefinition =>
    rw [htemporary] at h
    exact ⟨d, hdefinition, (Except.ok.inj h).symm⟩
  · cases h

/-- Nothing is handed out of the sequence of a definition that is stored as it is, and nothing of it
is reserved. -/
theorem isSafe_ofDefinition {d : SequenceDefinition} {catalog : Catalog}
    (hvalid : AttributesValid d.start d.minValue d.maxValue d.increment)
    (hexhausted : d.exhausted = false) (hcycle : d.cycle = false) (hready : catalog.IsReady)
    (hstored : catalog.entry? (Sequence.ofDefinition d).entryKey =
      some (.ofSequence (Sequence.ofDefinition d).definition)) :
    IsSafe d.increment ⟨Sequence.ofDefinition d, catalog⟩ [] (Sequence.ofDefinition d).value ∧
      IsTight d.increment ⟨Sequence.ofDefinition d, catalog⟩ (Sequence.ofDefinition d).value
        (max d.cacheSize 1).toInt := by
  obtain ⟨hlow, hhigh, hroom, hmoves, hstep⟩ := hvalid
  have hvalue : (Sequence.ofDefinition d).value = d.start.toInt := by
    show d.nextValue = _
    simp [SequenceDefinition.nextValue, hexhausted]
  have hnear : along d.increment d.start.toInt ≤
      along d.increment (Sequence.ofDefinition d).value :=
    Int.le_of_eq (congrArg (along d.increment) hvalue.symm)
  have hone := along_step_le hmoves (one_le_toInt_max d.cacheSize)
  -- Nothing was handed out so far, and nothing is reserved.
  constructor
  · exact
      { sound := ⟨rfl, hcycle, rfl, hmoves, one_le_toInt_max _, d.start, hnear⟩
        ready := hready
        stored := hstored
        generation := rfl
        flushed := fun hlast => by cases hlast
        fresh := fun _ => ⟨rfl, rfl⟩
        aligned := ⟨0, by simp [Sequence.ofDefinition]⟩
        reserved := .inl rfl
        passed := fun v hv => by cases hv
        ordered := .nil }
  · -- The first bound lies behind the start, or on it.
    have hfirst : along d.increment
        (if 0 < d.increment.toInt then d.minValue else d.maxValue).toInt ≤
          along d.increment d.start.toInt := by
      unfold along
      split
      · exact hlow
      · omega
    refine
      { committed := rfl
        cache := Int.le_refl _
        reserve := Int.add_le_add_left hone _
        valid := ?_
        first := Int.le_trans hfirst hnear }
    show AttributesValid (if 0 < d.increment.toInt then d.minValue else d.maxValue) d.minValue
      d.maxValue d.increment
    -- The bounds are valid for the increment in either direction.
    split
    · exact ⟨Int.le_refl _, Int.le_of_lt hroom, hroom, hmoves, hstep⟩
    · exact ⟨Int.le_of_lt hroom, Int.le_refl _, hroom, hmoves, hstep⟩

namespace Schema

variable {schema schema' : Schema} {name : String} {options : SequenceOptions} {s : Sequence}

/-! ## Ready catalogs -/

/-- What the sequence that numbers the objects starts with. -/
def objectIdsStart : SequenceDefinition :=
  ⟨⟨0⟩, objectIdsName, 1, 1, 1, 0xffffffff, defaultCacheSize, false, true, false⟩

/-- The sequence that numbers the objects is stored as it starts. -/
theorem runOn_createObjectIds {c : Catalog} (h : c.IsReady) :
    ∃ c', createObjectIds.runOn c = (.ok (Sequence.ofDefinition objectIdsStart), c') ∧ c'.IsReady ∧
      c'.store.committed = c.store.committed.insert ⟨.sequence, objectIdsName⟩
        (.ofSequence (Sequence.ofDefinition objectIdsStart).definition) := by
  have hcreate : Sequence.create ⟨0⟩ objectIdsName objectIdsOptions defaultCacheSize =
      .ok (Sequence.ofDefinition objectIdsStart) := rfl
  obtain ⟨c', hpersist, hready, hcommitted⟩ :=
    h.persist (.ofSequence (Sequence.ofDefinition objectIdsStart).definition)
  refine ⟨c', ?_, hready, hcommitted⟩
  rw [createObjectIds, runOn_bind, runOn_ofExcept, hcreate]
  dsimp only
  rw [runOn_bind, hpersist]
  rfl

theorem isReady_createObjectIds {c : Catalog} (h : c.IsReady) :
    (createObjectIds.runOn c).2.IsReady := by
  obtain ⟨c', hrun, hready, -⟩ := runOn_createObjectIds h
  rw [hrun]
  exact hready

/-- Opening a schema takes up what the entries hold. If they do not hold the sequence that numbers
the objects, it is created. -/
theorem openWithCache_eq (cache : Int64) (c : Catalog) :
    openWithCache cache c =
      match recoverAll c.entries with
      | .error err => (.error err, c)
      | .ok found =>
        let named := Table.ofList (found.filter fun e => e.1 ≠ objectIdsName)
        match (found.filter fun e => e.1 = objectIdsName).getLast? with
        | some (_, s) => (.ok ⟨c, max cache 1, named, s⟩, c)
        | none =>
          match createObjectIds.runOn c with
          | (.ok s, c') => (.ok ⟨c', max cache 1, named, s⟩, c')
          | (.error err, c') => (.error err, c') := by
  simp only [openWithCache, openOn, runOn_bind, runOn_get, runOn_ofExcept]
  -- The entries must all make sequences; the one of the object numbers may be missing.
  cases recoverAll c.entries with
  | error err => rfl
  | ok found =>
    dsimp only
    cases (found.filter fun e => e.1 = objectIdsName).getLast? with
    | some e => rfl
    | none =>
      dsimp only
      rw [runOn_bind]
      rcases createObjectIds.runOn c with ⟨err | s, c'⟩
      · rfl
      · rfl

/-- A schema that is opened on a ready catalog has a ready catalog. -/
theorem isReady_openWithCache {defaultCache : Int64} {c c' : Catalog} (h : c.IsReady)
    (hopen : openWithCache defaultCache c = (.ok schema, c')) : schema.catalog.IsReady := by
  have hcreated := isReady_createObjectIds h
  rw [openWithCache_eq] at hopen
  -- An open that fails leaves no registry to speak of.
  split at hopen
  · cases hopen
  · dsimp only at hopen
    split at hopen
    · cases hopen
      exact h
    · split at hopen
      · next s c₁ hrun =>
        cases hopen
        rwa [hrun] at hcreated
      · cases hopen

/-! ## Object numbers -/

/-- Numbering an object does to the schema what drawing the number does. -/
theorem state_nextObjectId (schema : Schema) :
    (nextObjectId.runOn schema).2 = ((onObjectIds StoredSequence.next).runOn schema).2 := by
  rw [nextObjectId, runOn_bind]
  rcases (onObjectIds StoredSequence.next).runOn schema with ⟨err | n, schema'⟩
  · rfl
  · dsimp only
    split
    · rfl
    · rfl

/-- Numbering an object leaves the catalog ready. -/
theorem isReady_nextObjectId (h : schema.catalog.IsReady) :
    (nextObjectId.runOn schema).2.catalog.IsReady := by
  rw [state_nextObjectId]
  exact StoredSequence.isReady_next (p := ⟨schema.objectIds, schema.catalog⟩) h

/-! ## Creating -/

/-- A sequence that was created is that of its options, and unless it is temporary its entry is
stored beside what numbering it has stored. -/
theorem made_of_createSequence (hready : schema.catalog.IsReady)
    (h : (createSequence name options).runOn schema = (.ok s, schema')) :
    let numbered := (nextObjectId.runOn schema).2.catalog.store.committed
    ∃ id d, options.definition id name schema.defaultCache = .ok d ∧
      s = { Sequence.ofDefinition d with temporary := options.temporary } ∧
      schema'.catalog.IsReady ∧ schema'.catalog.store.committed =
        if options.temporary then numbered
        else numbered.insert s.entryKey (.ofSequence s.definition) := by
  simp only [createSequence] at h
  split at h
  · cases h
  -- A name that is reserved or taken is refused, and so are options that make no sequence.
  obtain ⟨schema₀, schema₁, hget, h⟩ := exists_of_runOn_bind h
  obtain ⟨rfl, rfl⟩ : schema = schema₀ ∧ schema = schema₁ := by simpa using hget
  split at h
  · cases h
  obtain ⟨d₀, schema₁, hcheck, h⟩ := exists_of_runOn_bind h
  obtain ⟨-, rfl⟩ := Prod.mk.inj hcheck
  obtain ⟨id, schema₁, hid, h⟩ := exists_of_runOn_bind h
  obtain ⟨s', schema₂, hmake, h⟩ := exists_of_runOn_bind h
  obtain ⟨hcreate, rfl⟩ := Prod.mk.inj hmake
  -- The number of the sequence is drawn from another sequence in the same catalog.
  have hready₁ : schema₁.catalog.IsReady := by
    have hkept := isReady_nextObjectId hready
    rwa [hid] at hkept
  rw [hid]
  unfold Sequence.create at hcreate
  split at hcreate
  · next d hdefinition =>
    obtain rfl := Except.ok.inj hcreate
    refine ⟨id, d, hdefinition, ?_⟩
    -- A temporary sequence is not stored.
    cases htemporary : options.temporary with
    | true =>
      simp only [htemporary, Bool.not_true, Bool.false_eq_true, if_false, runOn_bind, runOn_modify,
        runOn_pure] at h
      obtain ⟨hs, rfl⟩ := Prod.mk.inj h
      exact ⟨(Except.ok.inj hs).symm, hready₁, rfl⟩
    | false =>
      let made : Sequence := { Sequence.ofDefinition d with temporary := false }
      obtain ⟨catalog, hpersist, hready₂, hcommitted⟩ :=
        hready₁.persist (.ofSequence made.definition)
      simp only [htemporary, Bool.not_false, if_true, runOn_bind, onCatalog, runOn_onPart] at h
      rw [hpersist] at h
      obtain ⟨hs, rfl⟩ := Prod.mk.inj h
      obtain rfl := Except.ok.inj hs
      exact ⟨rfl, hready₂, hcommitted⟩
  · cases hcreate

/-- A sequence that was created is that of its options, and its entry is stored. -/
theorem stored_of_createSequence (hready : schema.catalog.IsReady)
    (htemporary : options.temporary = false)
    (h : (createSequence name options).runOn schema = (.ok s, schema')) :
    ∃ id d, options.definition id name schema.defaultCache = .ok d ∧
      s = Sequence.ofDefinition d ∧ schema'.catalog.IsReady ∧
      schema'.catalog.entry? s.entryKey = some (.ofSequence s.definition) := by
  obtain ⟨id, d, hdefinition, hs, hready', hcommitted⟩ := made_of_createSequence hready h
  rw [htemporary] at hs hcommitted
  refine ⟨id, d, hdefinition, hs, hready', ?_⟩
  rw [hready'.entry?_eq, hcommitted]
  exact Table.get?_insert_self _ _ _

/-- Nothing of a sequence that was created was handed out, and nothing of it is reserved. -/
theorem isSafe_of_createSequence (hready : schema.catalog.IsReady)
    (htemporary : options.temporary = false) (hcycle : options.cycle = false)
    (h : (createSequence name options).runOn schema = (.ok s, schema')) :
    IsSafe s.increment ⟨s, schema'.catalog⟩ [] s.value ∧
      IsTight s.increment ⟨s, schema'.catalog⟩ s.value s.cacheSize.toInt := by
  obtain ⟨id, d, hdefinition, rfl, hready', hstored⟩ :=
    stored_of_createSequence hready htemporary h
  obtain ⟨hvalid, hexhausted, hbounded⟩ := SequenceOptions.valid_of_definition hdefinition
  exact isSafe_ofDefinition hvalid hexhausted (hbounded.trans hcycle) hready' hstored

end Schema

end TxnStore
