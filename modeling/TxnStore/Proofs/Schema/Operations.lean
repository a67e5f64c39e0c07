import TxnStore.Proofs.Schema.Registry

/-!
# What the operations of a schema keep

On a catalog that does not fail, each operation of a schema is refused before it touches anything or
leaves the schema in step with its catalog. Each number that it gives to an object is one that was
drawn for it and for nothing before.
-/

namespace TxnStore

open TxnStore.Action

/-- The definition that options come to has the number that it is given. -/
theorem SequenceOptions.definition_id (options : SequenceOptions) (id : ObjectId) (name : String)
    (cache : Int64) :
    options.definition id name cache =
      (options.definition ⟨0⟩ name cache).map fun d => { d with id } := by
  simp only [definition]
  generalize options.start.getD _ = start
  split
  · rfl
  · rfl

namespace Schema.IsInStep

variable {schema : Schema} {drawn : List Int64}

/-! ## Numbering objects -/

/-- An object gets a number that is drawn for it, or nothing is touched. -/
theorem nextObjectId (h : schema.IsInStep drawn) :
    (∃ err, Schema.nextObjectId.runOn schema = (.error err, schema)) ∨
      ∃ v schema', Schema.nextObjectId.runOn schema = (.ok (objectIdOf v), schema') ∧
        schema'.IsInStep (drawn ++ [v]) ∧ schema'.sequences = schema.sequences ∧
        schema'.defaultCache = schema.defaultCache := by
  let p : StoredSequence := ⟨schema.objectIds, schema.catalog⟩
  obtain ⟨m, largest, hsafe, htight⟩ := h.numbers
  have hitself : p.KeepsToItself (StoredSequence.next.runOn p).2 :=
    StoredSequence.keepsToItself_next h.ready
  have hattributes := p.attributes_next
  have hanswered := (StoredSequence.next_keeps (p := p) h.regular_objectIds).2
  rw [Schema.nextObjectId, runOn_bind, onObjectIds, runOn_onPart]
  -- The sequence of numbers is exhausted, or it gives one more number.
  rcases hsafe.next with ⟨err, hrun⟩ | ⟨v, p', m', hrun, hsafe', -, htight'⟩
  · rw [hrun]
    exact .inl ⟨err, rfl⟩
  right
  rw [runOn_map, hrun] at hanswered
  rw [hrun] at hitself hattributes ⊢
  -- A number within the bounds of the sequence is one that an object can have.
  have hrange : 1 ≤ v.toInt ∧ v.toInt ≤ 0xffffffff := by
    have hmin : p.sequence.minValue = 1 := congrArg SequenceDefinition.minValue h.numbering
    have hmax : p.sequence.maxValue = 0xffffffff := congrArg SequenceDefinition.maxValue h.numbering
    cases hanswered with
    | plain hplain => rcases hplain with hplain | ⟨fault, hplain⟩ <;> cases hplain
    | number hlow hhigh =>
      rw [hmin] at hlow
      rw [hmax] at hhigh
      exact ⟨hlow, hhigh⟩
  have hwithin : ∀ w ∈ drawn ++ [v], 1 ≤ w.toInt ∧ w.toInt ≤ 0xffffffff := by
    intro w hw
    rcases List.mem_append.mp hw with hold | hnew
    · exact h.within w hold
    · exact List.mem_singleton.mp hnew ▸ hrange
  have hword : 0 ≤ v.toInt ∧ v.toInt < 0x100000000 := by omega
  refine ⟨v, { schema with objectIds := p'.sequence, catalog := p'.catalog }, ?_,
    h.of_objectIds hitself hattributes ⟨m', largest, hsafe', htight' largest htight⟩ hwithin, rfl,
    -- The number is converted to an identifier only where it fits, which it does.
    rfl⟩
  dsimp only
  rw [if_pos hword]
  rfl

/-! ## Creating -/

/-- A new sequence is stored unless it is temporary, and either way it can be registered. -/
theorem storeNew (h : schema.IsInStep drawn) {d : SequenceDefinition} {name : String}
    (hvalid : AttributesValid d.start d.minValue d.maxValue d.increment) (hname : d.name = name)
    (hfree : name ≠ objectIdsName) {s : Sequence} {temporary : Bool}
    (hs : s = { Sequence.ofDefinition d with temporary }) :
    ∃ catalog, schema.catalog.SameBut ⟨.sequence, name⟩ catalog ∧ IsRegistered catalog name s ∧
      if s.temporary then catalog = schema.catalog
      else (Catalog.persist (.ofSequence s.definition)).runOn schema.catalog =
        (.ok (), catalog) := by
  -- A new sequence has nothing reserved, and is regular as its attributes are valid.
  have hregular : s.IsRegular := by
    obtain ⟨hmoves, hstep, hcache, hbegun⟩ := Sequence.isRegular_ofDefinition hvalid.recoverable
    subst hs
    exact ⟨hmoves, hstep, hcache, hbegun⟩
  have hnamed : s.name = name := by
    subst hs
    exact hname
  have hreserved : s.margin = s.value := by
    subst hs
    rfl
  cases htemporary : s.temporary with
  | true =>
    exact ⟨schema.catalog, .refl _ h.ready, ⟨hnamed, hfree, hregular, fun hkept => by
      rw [htemporary] at hkept
      cases hkept⟩, rfl⟩
  | false =>
    obtain ⟨catalog, hrun, hready, hcommitted⟩ := h.ready.persist (.ofSequence s.definition)
    have hkey : (CatalogEntry.ofSequence s.definition).key = ⟨.sequence, name⟩ :=
      congrArg (ObjectKey.mk .sequence) hnamed
    -- The entry in the catalog is the definition at its start.
    have hstored : catalog.entry? s.entryKey = some (.ofSequence s.definition) := by
      rw [hready.entry?_eq, hcommitted]
      exact Table.get?_insert_self _ _ _
    have hbegun := hregular.begun
    rw [← hreserved] at hbegun
    have hresumes := hregular.resumes_definitionAt hbegun
    rw [hreserved] at hresumes
    refine ⟨catalog, .of_committed hready (hkey ▸ hcommitted), ⟨hnamed, hfree, hregular,
      fun _ => ?_⟩, hrun⟩
    refine
      { ready := hready
        persistent := htemporary
        regular := hregular
        generation := ?_
        flushed := ?_
        fresh := fun _ => hreserved
        begun := hbegun
        stored := ⟨_, congrArg (Option.map _) hstored, hreserved ▸ hresumes⟩ }
    · subst hs
      rfl
    · subst hs
      nofun

/-- A sequence is created under a number that is drawn for it, or nothing is touched. -/
theorem createSequence (h : schema.IsInStep drawn) (name : String) (options : SequenceOptions) :
    (∃ err, (Schema.createSequence name options).runOn schema = (.error err, schema)) ∨
      ∃ v s schema', (Schema.createSequence name options).runOn schema = (.ok s, schema') ∧
        s.id = objectIdOf v ∧ schema'.IsInStep (drawn ++ [v]) := by
  simp only [Schema.createSequence]
  -- Requests are refused before anything is drawn.
  split
  · exact .inl ⟨_, rfl⟩
  next hfree =>
  rw [runOn_bind, runOn_get]
  dsimp only
  split
  · exact .inl ⟨_, rfl⟩
  next hunknown =>
  rw [runOn_bind, runOn_ofExcept]
  cases hdefinition : options.definition ⟨0⟩ name schema.defaultCache with
  | error err => exact .inl ⟨err, rfl⟩
  | ok d =>
    dsimp only
    rw [runOn_bind]
    -- With no number left for the sequence, nothing has changed.
    rcases h.nextObjectId with ⟨err, hrun⟩ | ⟨v, schema', hrun, hinstep, hsequences, -⟩
    · rw [hrun]
      exact .inl ⟨err, rfl⟩
    right
    -- What was checked before under another number makes a sequence under this one.
    let s : Sequence := { Sequence.ofDefinition { d with id := objectIdOf v } with
      temporary := options.temporary }
    have hcreate : Sequence.create (objectIdOf v) name options schema.defaultCache = .ok s := by
      unfold Sequence.create
      rw [SequenceOptions.definition_id, hdefinition]
      rfl
    have hname : d.name = name := SequenceOptions.name_of_definition hdefinition
    obtain ⟨catalog, hsame, hregistered, hstore⟩ :=
      hinstep.storeNew (d := { d with id := objectIdOf v }) (s := s)
        (SequenceOptions.valid_of_definition hdefinition).1 hname hfree rfl
    refine ⟨v, s, { schema' with catalog, sequences := schema'.sequences.insert name s }, ?_, rfl,
      hinstep.of_sequences hfree hsame (hinstep.distinct.insert name s) (some s)
        (fun j => Table.get?_insert _ _ _ _) (fun t ht => Option.some.inj ht ▸ hregistered) ?_⟩
    · -- The registration follows what was stored.
      rw [hrun]
      dsimp only
      rw [runOn_bind, runOn_ofExcept, hcreate]
      dsimp only
      cases htemporary : s.temporary with
      | true =>
        rw [htemporary, if_pos rfl] at hstore
        rw [hstore]
        rfl
      | false =>
        rw [htemporary, if_neg Bool.false_ne_true] at hstore
        rw [Bool.not_false, if_pos rfl, runOn_bind, onCatalog, runOn_onPart, hstore]
        rfl
    · intro e he
      cases htemporary : s.temporary with
      | false => exact ⟨s, rfl, htemporary⟩
      | true =>
        -- The name was free, and so it had no entry.
        rw [htemporary, if_pos rfl] at hstore
        rw [hstore] at he
        rcases hinstep.entries he with hreserved | ⟨t, ht, -⟩
        · exact absurd hreserved hfree
        · rw [hsequences] at ht
          simp [Table.contains, ht] at hunknown

/-! ## Dropping -/

/-- A sequence is removed with its entry. -/
theorem removeSequence (h : schema.IsInStep drawn) {name : String} {s : Sequence}
    (hs : schema.sequences.get? name = some s) :
    ∃ schema', (Schema.removeSequence name s).runOn schema = (.ok (), schema') ∧
      schema'.IsInStep drawn := by
  have hfree := (h.registered hs).free
  have hgone : ∀ j, (schema.sequences.erase name).get? j =
      if j = name then none else schema.sequences.get? j := Table.get?_erase _ _
  rw [Schema.removeSequence]
  cases htemporary : s.temporary with
  -- A temporary sequence has no entry to remove.
  | true =>
    have hentry := h.isTemporary_of_entry? hs htemporary
    refine ⟨{ schema with sequences := schema.sequences.erase name }, rfl,
      h.of_sequences hfree (.refl _ h.ready) (h.distinct.erase name) none hgone nofun
        fun e he => ?_⟩
    rw [hentry] at he
    cases he
  | false =>
    -- A lasting sequence loses its entry, and then its place in the registry.
    obtain ⟨catalog, hrun, hready, hcommitted⟩ := h.ready.forget ⟨.sequence, name⟩
    refine ⟨{ schema with sequences := schema.sequences.erase name, catalog }, ?_,
      h.of_sequences hfree (.of_erased hready hcommitted) (h.distinct.erase name) none hgone nofun
        fun e he => ?_⟩
    · rw [Bool.not_false, if_pos rfl, runOn_bind, onCatalog, runOn_onPart, hrun]
      rfl
    · rw [hcommitted, Table.get?_erase_self] at he
      cases he

theorem dropSequence (h : schema.IsInStep drawn) (name : String) :
    ((Schema.dropSequence name).runOn schema).2.IsInStep drawn := by
  rw [Schema.dropSequence, runOn_bind, runOn_get]
  dsimp only
  cases hs : schema.sequences.get? name with
  | none => exact h
  | some s =>
    dsimp only
    split
    · exact h
    · obtain ⟨schema', hrun, hinstep⟩ := h.removeSequence hs
      rw [hrun]
      exact hinstep

theorem dropTableSequence (h : schema.IsInStep drawn) (name : String) :
    ((Schema.dropTableSequence name).runOn schema).2.IsInStep drawn := by
  rw [Schema.dropTableSequence, runOn_bind, runOn_get]
  dsimp only
  cases hs : schema.sequences.get? name with
  | none => exact h
  | some s =>
    obtain ⟨schema', hrun, hinstep⟩ := h.removeSequence hs
    rw [hrun]
    exact hinstep

/-! ## Calls of sequences -/

/-- A call of a sequence that the schema knows leaves the schema in step. -/
theorem onSequence (h : schema.IsInStep drawn) {name : String} {s : Sequence}
    (hs : schema.sequences.get? name = some s) (c : SequenceCall) :
    ((Schema.onSequence name s c.action).runOn schema).2.IsInStep drawn := by
  obtain ⟨rfl, hfree, hregular, hkept⟩ := h.registered hs
  let p : StoredSequence := ⟨s, schema.catalog⟩
  have hitself : p.KeepsToItself (c.action.runOn p).2 := c.keepsToItself h.ready
  have hregular' := (c.keeps (p := p) hregular).1
  rw [Schema.onSequence, runOn_onPart]
  refine h.of_sequences hfree hitself.others (h.distinct.modify s.name _)
    (some (c.action.runOn p).2.sequence) (fun j => ?_) (fun t ht => ?_) fun e he => ?_
  · -- Only the sequence under the name is replaced.
    rw [Table.get?_modify]
    split
    · next hj =>
      rw [hj, hs]
      rfl
    · rfl
  · obtain rfl := Option.some.inj ht
    exact ⟨hitself.name, hfree, hregular', fun htemporary =>
      c.keeps_kept (hkept (hitself.temporary.symm.trans htemporary))⟩
  · refine ⟨_, rfl, hitself.temporary.trans ?_⟩
    -- A temporary sequence has no entry, before the call and after it.
    cases htemporary : s.temporary with
    | false => rfl
    | true =>
      rw [hitself.hidden htemporary, h.isTemporary_of_entry? hs htemporary] at he
      cases he

end Schema.IsInStep

/-! ## Closing -/

/-- Closing succeeds on a catalog that does not fail. -/
theorem StoredSequence.exists_of_close {p : StoredSequence} (hready : p.catalog.IsReady) :
    ∃ p', close.runOn p = (.ok (), p') := by
  rw [close, runOn_releaseReserved]
  split
  · rw [runOn_alter]
    obtain ⟨catalog, -, -, hrun⟩ := runOn_flushMargin_ready (p := ⟨{ p.sequence with
      margin := p.sequence.value, generation := p.sequence.generation + 1 }, p.catalog⟩) hready
        ⟨p.sequence.value, p.sequence.generation + 1⟩
    exact ⟨_, hrun⟩
  · exact ⟨p, rfl⟩

namespace Schema.IsInStep

variable {schema : Schema} {drawn : List Int64}

/-- Sequences of different names are closed one after the other. -/
theorem closeAll (h : schema.IsInStep drawn) {entries : List (String × Sequence)}
    (hnames : (entries.map Prod.fst).Nodup)
    (hentries : ∀ e ∈ entries, schema.sequences.get? e.1 = some e.2) :
    ∃ schema', (Schema.closeAll entries).runOn schema = (.ok (), schema') ∧
      schema'.IsInStep drawn := by
  -- By induction on the entries, of which each one stays registered as it is until its turn.
  induction entries generalizing schema with
  | nil => exact ⟨schema, rfl, h⟩
  | cons e rest ih =>
    obtain ⟨name, s⟩ := e
    obtain ⟨hfirst, hrest⟩ := List.nodup_cons.mp hnames
    have hs : schema.sequences.get? name = some s := hentries (name, s) List.mem_cons_self
    obtain ⟨p', hclose⟩ := StoredSequence.exists_of_close (p := ⟨s, schema.catalog⟩) h.ready
    let schema₁ : Schema := { schema with
      sequences := schema.sequences.modify name fun _ => p'.sequence
      catalog := p'.catalog }
    have hinstep : schema₁.IsInStep drawn := by
      have hcalled := h.onSequence hs .close
      rw [Schema.onSequence, runOn_onPart, SequenceCall.action, runOn_numberless, hclose] at hcalled
      exact hcalled
    -- The sequences that are left are those that the schema had before.
    have hothers : ∀ e ∈ rest, schema₁.sequences.get? e.1 = some e.2 := by
      intro e he
      have hne : e.1 ≠ name := fun hsame => hfirst (List.mem_map.mpr ⟨e, he, hsame⟩)
      show (schema.sequences.modify name _).get? e.1 = _
      rw [Table.get?_modify, if_neg hne]
      exact hentries e (List.mem_cons_of_mem _ he)
    obtain ⟨schema', hrun, hdone⟩ := ih hinstep hrest hothers
    refine ⟨schema', ?_, hdone⟩
    rw [Schema.closeAll, runOn_bind, Schema.onSequence, runOn_onPart, hclose]
    exact hrun

/-- All sequences are closed, and the one that numbers the objects as well. -/
theorem close (h : schema.IsInStep drawn) :
    ∃ schema', Schema.close.runOn schema = (.ok (), schema') ∧ schema'.IsInStep drawn := by
  have hperm : schema.ordered.Perm schema.sequences.toList := List.mergeSort_perm _ _
  have hnames : (schema.ordered.map Prod.fst).Nodup :=
    (hperm.map Prod.fst).nodup_iff.mpr h.distinct.nodup
  -- The entries to close are those of the registry, in the order of their names.
  obtain ⟨schema₁, hall, hinstep⟩ := h.closeAll hnames fun e he =>
    Table.find?_of_mem h.distinct.nodup (hperm.mem_iff.mp he)
  -- The sequence of numbers releases what it has reserved, as every other one does.
  let p : StoredSequence := ⟨schema₁.objectIds, schema₁.catalog⟩
  obtain ⟨m, largest, hsafe, htight⟩ := hinstep.numbers
  obtain ⟨p', m', hclose, hsafe', htight'⟩ := hsafe.releaseReserved
  have hitself := SequenceCall.close.keepsToItself (p := p) hinstep.ready
  have hattributes := p.attributes_close
  rw [SequenceCall.action, runOn_numberless] at hitself
  rw [StoredSequence.close, hclose] at hitself hattributes
  refine ⟨{ schema₁ with objectIds := p'.sequence, catalog := p'.catalog }, ?_,
    hinstep.of_objectIds hitself hattributes ⟨m', _, hsafe', htight' largest htight⟩ hinstep.within⟩
  rw [Schema.close, runOn_bind, runOn_get]
  dsimp only
  rw [runOn_bind, hall]
  dsimp only
  rw [onObjectIds, runOn_onPart, StoredSequence.close, hclose]

end Schema.IsInStep

end TxnStore
