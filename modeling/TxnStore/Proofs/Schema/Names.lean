import TxnStore.Proofs.Schema.Lives
import TxnStore.Proofs.Sequences.LostMargins
import TxnStore.Proofs.Sequences.Steps

/-!
# Names in a schema

A schema finds each sequence by its own name, and so each sequence writes the entry under which it
is found and no other. A name that neither the schema nor its catalog has is then brought in by
nothing but a creation, whatever else is done and whichever calls of the catalog fail.
-/

namespace TxnStore

open TxnStore.Action

/-! ## Entries that are gained -/

/-- A catalog that has gained entries of sequences of one name at most. -/
structure Catalog.Gains (c : Catalog) (name : String) (c' : Catalog) : Prop where
  idle : c'.IsIdle
  entries : ∀ e ∈ c'.entries, e ∈ c.entries ∨ ∃ d, d.name = name ∧ e = .ofSequence d

namespace Catalog.Gains

variable {c c' : Catalog} {name : String}

theorem of_committed (hidle : c'.IsIdle) (h : c'.store.committed = c.store.committed) :
    c.Gains name c' := by
  refine ⟨hidle, fun e he => .inl ?_⟩
  rw [Catalog.entries, CatalogStore.entries, h] at he
  exact he

theorem refl (h : c.IsIdle) : c.Gains name c := of_committed h rfl

theorem of_insert {key : ObjectKey} {d : SequenceDefinition} (hidle : c'.IsIdle)
    (hname : d.name = name)
    (h : c'.store.committed = c.store.committed.insert key (.ofSequence d)) : c.Gains name c' := by
  refine ⟨hidle, fun e he => ?_⟩
  obtain ⟨b, hb, rfl⟩ := List.mem_map.mp he
  rw [h] at hb
  rcases Table.mem_place hb with rfl | hb
  · exact .inr ⟨d, hname, rfl⟩
  · exact .inl (List.mem_map.mpr ⟨b, hb, rfl⟩)

theorem of_erase {key : ObjectKey} (hidle : c'.IsIdle)
    (h : c'.store.committed = c.store.committed.erase key) : c.Gains name c' := by
  refine ⟨hidle, fun e he => ?_⟩
  obtain ⟨b, hb, rfl⟩ := List.mem_map.mp he
  rw [h] at hb
  exact .inl (List.mem_map.mpr ⟨b, (List.mem_filter.mp hb).1, rfl⟩)

end Catalog.Gains

/-- Each entry of a sequence is filed under the name by which the sequence goes. -/
def Catalog.IsNamed (c : Catalog) : Prop :=
  ∀ e ∈ c.entries, ∀ d, e.object = .sequence d → d.name = e.name

/-- No sequence has an entry of the name. -/
def Catalog.Lacks (c : Catalog) (name : String) : Prop :=
  ∀ e ∈ c.entries, e.key ≠ ⟨.sequence, name⟩

namespace Catalog.Gains

variable {c c' : Catalog} {name other : String}

theorem isNamed (h : c.Gains name c') (hnamed : c.IsNamed) : c'.IsNamed := by
  intro e he d hd
  rcases h.entries e he with hold | ⟨d', -, rfl⟩
  · exact hnamed e hold d hd
  · exact congrArg SequenceDefinition.name (CatalogObject.sequence.inj hd).symm

theorem lacks (h : c.Gains name c') (hne : name ≠ other) (hlacks : c.Lacks other) :
    c'.Lacks other := by
  intro e he hkey
  rcases h.entries e he with hold | ⟨d, hd, rfl⟩
  · exact hlacks e hold hkey
  · exact hne (hd.symm.trans (congrArg ObjectKey.name hkey))

end Catalog.Gains

/-- A sequence that stores a margin, or fails to, gains entries of its own name at most, and stays
what it is. -/
theorem StoredSequence.gains_storing {s : Sequence} {catalog : Catalog} (hidle : catalog.IsIdle)
    (r : Option Reservation) :
    catalog.Gains s.name (storing ⟨s, catalog⟩ r).catalog ∧
      (storing ⟨s, catalog⟩ r).sequence.name = s.name ∧
      (storing ⟨s, catalog⟩ r).sequence.temporary = s.temporary := by
  -- Nothing is stored, no news, a temporary sequence, or a commit that may fail.
  cases r with
  | none => exact ⟨.refl hidle, rfl, rfl⟩
  | some r =>
    cases hnews : s.shouldFlush r with
    | false =>
      rw [storing_of_not_shouldFlush hnews]
      exact ⟨.refl hidle, rfl, rfl⟩
    | true =>
      cases htemporary : s.temporary with
      | true =>
        rw [storing, runOn_flushMargin_temporary (p := ⟨s, catalog⟩) hnews htemporary]
        exact ⟨.refl hidle, rfl, htemporary⟩
      | false =>
        obtain ⟨catalog', hidle', ⟨hrun, hcommitted, -⟩ | ⟨err, hrun, hcommitted⟩⟩ :=
          flushMargin_cases (p := ⟨s, catalog⟩) hidle htemporary hnews
        · rw [storing, hrun]
          exact ⟨.of_insert hidle' rfl hcommitted, rfl, htemporary⟩
        · rw [storing, hrun]
          exact ⟨.of_committed hidle' hcommitted, rfl, htemporary⟩

/-- A step of a sequence gains entries of its own name at most. -/
theorem SequenceStep.gains (step : SequenceStep) {s : Sequence} {catalog : Catalog}
    (hidle : catalog.IsIdle) :
    catalog.Gains s.name (step.action.runOn ⟨s, catalog⟩).2.catalog ∧
      (step.action.runOn ⟨s, catalog⟩).2.sequence.name = s.name ∧
      (step.action.runOn ⟨s, catalog⟩).2.sequence.temporary = s.temporary := by
  rw [step.runOn_moves]
  obtain ⟨hname, htemporary⟩ := step.moves_keep s
  rw [← hname, ← htemporary]
  exact StoredSequence.gains_storing hidle (step.moves s).2

namespace Schema

/-! ## Names that stay away -/

/-- All that the schema and its catalog have of sequences goes by the name under which it is found.
-/
structure IsNamed (schema : Schema) : Prop where
  idle : schema.catalog.IsIdle
  numbering : schema.objectIds.name = objectIdsName
  known : ∀ b ∈ schema.sequences.toList, b.2.name = b.1 ∧ b.1 ≠ objectIdsName
  stored : schema.catalog.IsNamed

/-- No sequence goes by the name. -/
structure Lacks (schema : Schema) (name : String) : Prop where
  free : name ≠ objectIdsName
  unknown : name ∉ schema.sequences.keys
  absent : schema.catalog.Lacks name

/-- A schema after something that has brought in no name but one that was created. -/
structure Follows (schema : Schema) (created : Option String) (schema' : Schema) : Prop where
  named : schema'.IsNamed
  lacks : ∀ {name}, created ≠ some name → schema.Lacks name → schema'.Lacks name

namespace Follows

variable {schema schema₁ schema' : Schema} {created : Option String}

theorem refl (h : schema.IsNamed) : schema.Follows created schema := ⟨h, fun _ h => h⟩

theorem trans (h : schema.Follows none schema₁) (h' : schema₁.Follows created schema') :
    schema.Follows created schema' :=
  ⟨h'.named, fun hname hlacks => h'.lacks hname (h.lacks nofun hlacks)⟩

end Follows

/-- What a sequence of a known name does, or one that is created, brings in no other name. -/
theorem IsNamed.follows {schema schema' : Schema} (h : schema.IsNamed) {created : Option String}
    {name : String}
    (hname : name = objectIdsName ∨ name ∈ schema.sequences.keys ∨ created = some name)
    (hgains : schema.catalog.Gains name schema'.catalog)
    (hnumbering : schema'.objectIds.name = objectIdsName)
    (hknown : ∀ b ∈ schema'.sequences.toList, b ∈ schema.sequences.toList ∨
      b.2.name = b.1 ∧ b.1 = name ∧ name ≠ objectIdsName) :
    schema.Follows created schema' := by
  constructor
  · -- What is known stays filed under its own name.
    refine ⟨hgains.idle, hnumbering, fun b hb => ?_, hgains.isNamed h.stored⟩
    rcases hknown b hb with hold | ⟨hnamed, rfl, hfree⟩
    · exact h.known b hold
    · exact ⟨hnamed, hfree⟩
  · intro other hother hlacks
    -- What goes by the name that acts was there before, or is created now.
    have hne : name ≠ other := by
      rintro rfl
      rcases hname with hreserved | hmem | hcreated
      · exact hlacks.free hreserved
      · exact hlacks.unknown hmem
      · exact hother hcreated
    refine ⟨hlacks.free, fun hmem => ?_, hgains.lacks hne hlacks.absent⟩
    obtain ⟨b, hb, rfl⟩ := List.mem_map.mp hmem
    rcases hknown b hb with hold | ⟨-, hsame, -⟩
    · exact hlacks.unknown (List.mem_map.mpr ⟨b, hold, rfl⟩)
    · exact hne hsame.symm

namespace IsNamed

variable {schema : Schema} {name : String} {s : Sequence} {α : Type}

theorem mem_keys (hs : schema.sequences.get? name = some s) : name ∈ schema.sequences.keys :=
  List.mem_map.mpr ⟨(name, s), Table.mem_of_find? hs, rfl⟩

/-! ## Operations -/

/-- What the sequence that numbers the objects does brings in no name. -/
theorem onObjectIds (h : schema.IsNamed) {a : Action StoredSequence α} {step : SequenceStep}
    (ha : ∀ p, (a.runOn p).2 = (step.action.runOn p).2) :
    schema.Follows none ((Schema.onObjectIds a).runOn schema).2 := by
  obtain ⟨hgains, hname, -⟩ := step.gains (s := schema.objectIds) h.idle
  rw [← ha] at hgains hname
  exact h.follows (.inl h.numbering) hgains (hname.trans h.numbering) fun b hb => .inl hb

/-- What a known sequence does brings in no name. -/
theorem onSequence (h : schema.IsNamed) (hs : name ∈ schema.sequences.keys) (hname : s.name = name)
    {a : Action StoredSequence α} {step : SequenceStep}
    (ha : ∀ p, (a.runOn p).2 = (step.action.runOn p).2) :
    schema.Follows none ((Schema.onSequence name s a).runOn schema).2 := by
  obtain ⟨hgains, hsame, -⟩ := step.gains (s := s) h.idle
  rw [← ha] at hgains hsame
  -- The sequence under the name is replaced by itself after the step.
  refine h.follows (.inr (.inl hs)) (hname ▸ hgains) h.numbering fun b hb => ?_
  obtain ⟨old, hold, rfl⟩ := List.mem_map.mp hb
  split
  · next hkey =>
    refine .inr ⟨(hsame.trans hname).trans hkey.symm, hkey, ?_⟩
    rw [← hkey]
    exact (h.known old hold).2
  · exact .inl hold

theorem nextObjectId (h : schema.IsNamed) :
    schema.Follows none (Schema.nextObjectId.runOn schema).2 := by
  rw [state_nextObjectId]
  exact h.onObjectIds SequenceStep.state_next

/-- A creation brings in its name at most, however far it gets. -/
theorem createSequence (h : schema.IsNamed) (name : String) (options : SequenceOptions) :
    schema.Follows (some name) ((Schema.createSequence name options).runOn schema).2 := by
  -- Each check that refuses the request leaves the schema as it is.
  simp only [Schema.createSequence]
  split
  · exact .refl h
  next hfree =>
  rw [runOn_bind, runOn_get]
  dsimp only
  split
  · exact .refl h
  rw [runOn_bind, runOn_ofExcept]
  cases options.definition ⟨0⟩ name schema.defaultCache with
  | error err => exact .refl h
  | ok d₀ =>
    dsimp only
    rw [runOn_bind]
    -- The number that is drawn stays spent, whatever comes after it.
    have hnumbered := h.nextObjectId
    rcases hid : Schema.nextObjectId.runOn schema with ⟨err | id, schema₁⟩
    · rw [hid] at hnumbered
      exact hnumbered.trans (.refl hnumbered.named)
    rw [hid] at hnumbered
    refine hnumbered.trans ?_
    dsimp only at hnumbered ⊢
    have hnamed := hnumbered.named
    rw [runOn_bind, runOn_ofExcept]
    cases hcreate : Sequence.create id name options schema.defaultCache with
    | error err => exact .refl hnamed
    | ok s =>
      have hname : s.name = name := by
        unfold Sequence.create at hcreate
        split at hcreate
        · next d hdefinition =>
          rw [← Except.ok.inj hcreate]
          exact SequenceOptions.name_of_definition hdefinition
        · cases hcreate
      dsimp only
      -- From here on all that can be new goes by the name.
      have hinserted : ∀ b ∈ (schema₁.sequences.insert name s).toList,
          b ∈ schema₁.sequences.toList ∨ b.2.name = b.1 ∧ b.1 = name ∧ name ≠ objectIdsName := by
        intro b hb
        rcases Table.mem_place hb with rfl | hold
        · exact .inr ⟨hname, rfl, hfree⟩
        · exact .inl hold
      -- A temporary sequence is registered without a write.
      cases htemporary : s.temporary with
      | true =>
        exact hnamed.follows (.inr (.inr rfl)) (.refl hnamed.idle) hnamed.numbering hinserted
      | false =>
        rw [Bool.not_false, if_pos rfl, runOn_bind, onCatalog, runOn_onPart]
        obtain ⟨catalog, hidle, ⟨hrun, hcommitted⟩ | ⟨err, hrun, hcommitted⟩⟩ :=
          hnamed.idle.persist_cases (.ofSequence s.definition)
        · rw [hrun]
          exact hnamed.follows (.inr (.inr rfl)) (.of_insert hidle hname hcommitted)
            hnamed.numbering hinserted
        · rw [hrun]
          exact hnamed.follows (.inr (.inr rfl)) (.of_committed hidle hcommitted)
            hnamed.numbering fun b hb => .inl hb

/-- A removal brings in no name, however far it gets. -/
theorem removeSequence (h : schema.IsNamed) (name : String) (s : Sequence) :
    schema.Follows none ((Schema.removeSequence name s).runOn schema).2 := by
  have herased : ∀ b ∈ (schema.sequences.erase name).toList,
      b ∈ schema.sequences.toList := fun b hb => (List.mem_filter.mp hb).1
  rw [Schema.removeSequence]
  cases s.temporary with
  -- A temporary sequence has nothing in the catalog to remove.
  | true =>
    exact h.follows (.inl rfl) (.refl h.idle) h.numbering fun b hb => .inl (herased b hb)
  | false =>
    rw [Bool.not_false, if_pos rfl, runOn_bind, onCatalog, runOn_onPart]
    obtain ⟨catalog, hidle, ⟨hrun, hcommitted⟩ | ⟨err, hrun, hcommitted⟩⟩ :=
      h.idle.forget_cases ⟨.sequence, name⟩
    · -- Without its entry the sequence is forgotten, and with it the sequence stays.
      rw [hrun]
      exact h.follows (.inl rfl) (.of_erase hidle hcommitted) h.numbering fun b hb =>
        .inl (herased b hb)
    · rw [hrun]
      exact h.follows (.inl rfl) (.of_committed hidle hcommitted) h.numbering fun b hb => .inl hb

theorem dropSequence (h : schema.IsNamed) (name : String) :
    schema.Follows none ((Schema.dropSequence name).runOn schema).2 := by
  rw [Schema.dropSequence, runOn_bind, runOn_get]
  dsimp only
  cases schema.sequences.get? name with
  | none => exact .refl h
  | some s =>
    dsimp only
    split
    · exact .refl h
    · exact h.removeSequence name s

theorem dropTableSequence (h : schema.IsNamed) (name : String) :
    schema.Follows none ((Schema.dropTableSequence name).runOn schema).2 := by
  rw [Schema.dropTableSequence, runOn_bind, runOn_get]
  dsimp only
  cases schema.sequences.get? name with
  | none => exact .refl h
  | some s => exact h.removeSequence name s

/-- Closing known sequences brings in no name, however far it gets. -/
theorem closeAll (h : schema.IsNamed) {entries : List (String × Sequence)}
    (hentries : ∀ e ∈ entries, e.1 ∈ schema.sequences.keys ∧ e.2.name = e.1) :
    schema.Follows none ((Schema.closeAll entries).runOn schema).2 := by
  -- By induction on the entries, of which each one is closed on its own.
  induction entries generalizing schema with
  | nil => exact .refl h
  | cons e rest ih =>
    obtain ⟨name, s⟩ := e
    obtain ⟨hmem, hname⟩ := hentries (name, s) List.mem_cons_self
    have hclosed : schema.Follows none
        ((Schema.onSequence name s StoredSequence.close).runOn schema).2 :=
      h.onSequence hmem hname SequenceStep.state_close
    have hkeys : ((Schema.onSequence name s StoredSequence.close).runOn schema).2.sequences.keys =
        schema.sequences.keys := Table.keys_modify _ _ _
    rw [Schema.closeAll, runOn_bind]
    rcases hrun : (Schema.onSequence name s StoredSequence.close).runOn schema with
      ⟨err | u, schema₁⟩
    · rw [hrun] at hclosed
      exact hclosed
    · rw [hrun] at hclosed hkeys
      -- Closing replaces a sequence by itself, so that the others are found as before.
      refine hclosed.trans (ih hclosed.named fun e he => ?_)
      rw [hkeys]
      exact hentries e (List.mem_cons_of_mem _ he)

/-- Closing brings in no name. -/
theorem close (h : schema.IsNamed) : schema.Follows none (Schema.close.runOn schema).2 := by
  have hall : schema.Follows none ((Schema.closeAll schema.ordered).runOn schema).2 := by
    refine h.closeAll fun e he => ?_
    have hmem := List.mem_mergeSort.mp he
    exact ⟨List.mem_map.mpr ⟨e, hmem, rfl⟩, (h.known e hmem).1⟩
  rw [Schema.close, runOn_bind, runOn_get]
  dsimp only
  rw [runOn_bind]
  -- The sequences are closed first, and the sequence of numbers last.
  rcases hrun : (Schema.closeAll schema.ordered).runOn schema with ⟨err | u, schema₁⟩
  · rw [hrun] at hall
    exact hall
  · rw [hrun] at hall
    exact hall.trans (hall.named.onObjectIds SequenceStep.state_close)

end IsNamed

/-! ## Opening -/

/-- The sequence that numbers the objects is created under its own name, if it can be stored. -/
theorem gains_createObjectIds {c : Catalog} (h : c.IsIdle) :
    c.Gains objectIdsName (createObjectIds.runOn c).2 ∧
      ∀ {s c'}, createObjectIds.runOn c = (.ok s, c') → s.name = objectIdsName := by
  have hcreate : Sequence.create ⟨0⟩ objectIdsName objectIdsOptions defaultCacheSize =
      .ok (Sequence.ofDefinition objectIdsStart) := rfl
  obtain ⟨catalog, hidle, ⟨hrun, hcommitted⟩ | ⟨err, hrun, hcommitted⟩⟩ :=
    h.persist_cases (.ofSequence (Sequence.ofDefinition objectIdsStart).definition)
  all_goals
    rw [createObjectIds, runOn_bind, runOn_ofExcept, hcreate]
    dsimp only
    rw [runOn_bind, hrun]
  · -- The sequence of numbers goes by its reserved name, however its creation ends.
    refine ⟨.of_insert hidle rfl hcommitted, fun heq => ?_⟩
    rw [← Except.ok.inj (Prod.mk.inj heq).1]
    rfl
  · exact ⟨.of_committed hidle hcommitted, fun heq => by cases heq⟩

/-- What is taken up from the entries of a catalog goes by their names. -/
theorem named_of_takenUp? {c : Catalog} (hstored : c.IsNamed) {b : String × Sequence}
    (hb : b ∈ c.entries.filterMap takenUp?) :
    b.2.name = b.1 ∧ ∃ e ∈ c.entries, e.key = ⟨.sequence, b.1⟩ := by
  obtain ⟨e, he, htaken⟩ := List.mem_filterMap.mp hb
  obtain ⟨hname, d, hd, hs⟩ := takenUp?_eq_some_iff.mp htaken
  rw [← hname, ← hs]
  exact ⟨hstored e he d hd, e, he, key_of_sequence hd⟩

/-- Opening a schema brings in no name that the catalog does not have. -/
theorem isNamed_of_openWithCache {c c' : Catalog} {cache : Int64} {schema : Schema}
    (hidle : c.IsIdle) (hstored : c.IsNamed)
    (hopen : openWithCache cache c = (.ok schema, c')) :
    schema.IsNamed ∧ ∀ {name}, name ≠ objectIdsName → c.Lacks name → schema.Lacks name := by
  obtain ⟨-, objectIds, rfl, hids⟩ := openWithCache_cases hopen
  -- What is taken up again comes from an entry of the same name.
  have hknown : ∀ b ∈ (takenUpAgain c).toList,
      b ∈ c.entries.filterMap takenUp? ∧ b.1 ≠ objectIdsName := by
    intro b hb
    obtain ⟨hmem, hname⟩ := List.mem_filter.mp (Table.mem_of_mem_ofList hb)
    exact ⟨hmem, of_decide_eq_true hname⟩
  obtain ⟨hgains, hnumbering⟩ :
      c.Gains objectIdsName c' ∧ objectIds.name = objectIdsName := by
    -- The sequence of numbers is found in the catalog, or it is created.
    rcases hids with ⟨rfl, hmem⟩ | hcreated
    · exact ⟨.refl hidle, (named_of_takenUp? hstored hmem).1⟩
    · obtain ⟨hgains, hname⟩ := gains_createObjectIds hidle
      rw [hcreated] at hgains
      exact ⟨hgains, hname hcreated⟩
  constructor
  · refine ⟨hgains.idle, hnumbering, fun b hb => ?_, hgains.isNamed hstored⟩
    obtain ⟨hmem, hfree⟩ := hknown b hb
    exact ⟨(named_of_takenUp? hstored hmem).1, hfree⟩
  · -- A name without an entry is lacking in the registry too, unless it is the reserved one.
    intro name hfree habsent
    refine ⟨hfree, fun hmem => ?_, hgains.lacks (Ne.symm hfree) habsent⟩
    obtain ⟨b, hb, rfl⟩ := List.mem_map.mp hmem
    obtain ⟨-, e, he, hkey⟩ := named_of_takenUp? hstored (hknown b hb).1
    exact habsent e he hkey

theorem IsNamed.withFaults {schema : Schema} (h : schema.IsNamed) (faults : CatalogFaults) :
    schema.Follows none { schema with catalog := schema.catalog.withFaults faults } :=
  h.follows (.inl rfl) (.of_committed (h.idle.withFaults faults) rfl) h.numbering
    fun _ hb => .inl hb

end Schema

end TxnStore
