import TxnStore.Proofs.Schema.Reopening

/-!
# The life of a schema

Sequences are created, used and dropped, objects are numbered, and from time to time the schema is
closed or lost, and another one is opened on its catalog. Throughout, the sequences that are known
and not temporary are those that have an entry, and no number is given to two objects.
-/

namespace TxnStore

open TxnStore.Action

/-- What can happen to a schema. -/
inductive SchemaEvent where
  | createSequence (name : String) (options : SequenceOptions)
  | createTableSequence (name : String) (start increment : Int64)
  | dropSequence (name : String)
  | dropTableSequence (name : String)
  /-- A call of the sequence that is known by a name; there is none where the name is unknown. -/
  | call (name : String) (c : SequenceCall)
  | nextObjectId
  | close
  /-- The schema is lost, closed or not, and another one is opened on its catalog. -/
  | reopen (defaultCache : Int64)

/-- A schema with the numbers given to objects by it and by those before it. -/
structure SchemaLife where
  schema : Schema
  /-- The numbers given so far, the oldest first. -/
  assigned : List ObjectId

namespace SchemaLife

/-- The life goes on after an operation that may have given a number to an object. -/
def goOn {α : Type} (l : SchemaLife) (id : α → ObjectId) :
    Except StoreError α × Schema → SchemaLife
  | (.ok a, schema) => ⟨schema, l.assigned ++ [id a]⟩
  | (.error _, schema) => { l with schema }

/-- The life after an event. Only a catalog that cannot be opened again can end it. -/
def undergo (l : SchemaLife) : SchemaEvent → Except StoreError SchemaLife
  | .createSequence name options =>
    .ok (l.goOn Sequence.id ((Schema.createSequence name options).runOn l.schema))
  | .createTableSequence name start increment =>
    .ok (l.goOn Sequence.id ((Schema.createTableSequence name start increment).runOn l.schema))
  | .dropSequence name => .ok { l with schema := ((Schema.dropSequence name).runOn l.schema).2 }
  | .dropTableSequence name =>
    .ok { l with schema := ((Schema.dropTableSequence name).runOn l.schema).2 }
  | .call name c =>
    match l.schema.sequences.get? name with
    | none => .ok l
    | some s => .ok { l with schema := ((Schema.onSequence name s c.action).runOn l.schema).2 }
  | .nextObjectId => .ok (l.goOn id (Schema.nextObjectId.runOn l.schema))
  | .close => .ok { l with schema := (Schema.close.runOn l.schema).2 }
  | .reopen defaultCache =>
    match Schema.openWithCache defaultCache l.schema.catalog with
    | (.ok schema, _) => .ok { l with schema }
    | (.error err, _) => .error err

/-- The life after events one after the other. -/
def run (l : SchemaLife) : List SchemaEvent → Except StoreError SchemaLife
  | [] => .ok l
  | ev :: rest =>
    match l.undergo ev with
    | .ok l' => l'.run rest
    | .error err => .error err

/-! ## What each event keeps -/

/-- A schema in step with its catalog, where objects have only numbers that were drawn for them. -/
structure IsOrderly (l : SchemaLife) (drawn : List Int64) : Prop where
  inStep : l.schema.IsInStep drawn
  assigned : l.assigned.Sublist (drawn.map Schema.objectIdOf)

variable {l : SchemaLife} {drawn : List Int64}

/-- A number that is drawn for an object is given to it. -/
theorem IsOrderly.numbered (h : l.IsOrderly drawn) {α : Type} {id : α → ObjectId} {a : α}
    {v : Int64} {schema : Schema} (hid : id a = Schema.objectIdOf v)
    (hinstep : schema.IsInStep (drawn ++ [v])) :
    (l.goOn id (.ok a, schema)).IsOrderly (drawn ++ [v]) := by
  refine ⟨hinstep, ?_⟩
  show (l.assigned ++ [id a]).Sublist _
  rw [List.map_append, List.map_singleton, hid]
  exact h.assigned.append (List.Sublist.refl _)

theorem IsOrderly.createSequence (h : l.IsOrderly drawn) (name : String)
    (options : SequenceOptions) :
    ∃ drawn', (l.goOn Sequence.id ((Schema.createSequence name options).runOn l.schema)).IsOrderly
      drawn' := by
  rcases h.inStep.createSequence name options with ⟨err, hrun⟩ | ⟨v, s, schema, hrun, hid, hinstep⟩
  · rw [hrun]
    exact ⟨drawn, h.inStep, h.assigned⟩
  · rw [hrun]
    exact ⟨_, h.numbered hid hinstep⟩

theorem IsOrderly.undergo (h : l.IsOrderly drawn) (ev : SchemaEvent) :
    ∃ l' drawn', l.undergo ev = .ok l' ∧ l'.IsOrderly drawn' := by
  -- A created sequence takes a number, and the other events leave the numbers that were drawn.
  cases ev with
  | createSequence name options =>
    obtain ⟨drawn', hcreated⟩ := h.createSequence name options
    exact ⟨_, drawn', rfl, hcreated⟩
  | createTableSequence name start increment =>
    obtain ⟨drawn', hcreated⟩ := h.createSequence name { SequenceOptions.basic with
      start := some start, increment := some increment, belongsToTable := true }
    exact ⟨_, drawn', rfl, hcreated⟩
  | dropSequence name => exact ⟨_, drawn, rfl, h.inStep.dropSequence name, h.assigned⟩
  | dropTableSequence name => exact ⟨_, drawn, rfl, h.inStep.dropTableSequence name, h.assigned⟩
  | call name c =>
    simp only [SchemaLife.undergo]
    cases hs : l.schema.sequences.get? name with
    | none => exact ⟨l, drawn, rfl, h⟩
    | some s => exact ⟨_, drawn, rfl, h.inStep.onSequence hs c, h.assigned⟩
  | nextObjectId =>
    simp only [SchemaLife.undergo]
    rcases h.inStep.nextObjectId with ⟨err, hrun⟩ | ⟨v, schema, hrun, hinstep, -⟩
    · rw [hrun]
      exact ⟨_, drawn, rfl, h.inStep, h.assigned⟩
    · rw [hrun]
      exact ⟨_, _, rfl, h.numbered rfl hinstep⟩
  | close =>
    simp only [SchemaLife.undergo]
    obtain ⟨schema, hrun, hinstep⟩ := h.inStep.close
    rw [hrun]
    exact ⟨_, drawn, rfl, hinstep, h.assigned⟩
  -- The registry is taken from the catalog again, which agrees with it.
  | reopen defaultCache =>
    simp only [SchemaLife.undergo]
    obtain ⟨schema, hopen, hinstep, -⟩ := h.inStep.reopen defaultCache
    rw [hopen]
    exact ⟨_, drawn, rfl, hinstep, h.assigned⟩

/-- What each event keeps holds after any number of them, and none of them ends the life. -/
theorem IsOrderly.run (h : l.IsOrderly drawn) (events : List SchemaEvent) :
    ∃ l' drawn', l.run events = .ok l' ∧ l'.IsOrderly drawn' := by
  induction events generalizing l drawn with
  | nil => exact ⟨l, drawn, rfl, h⟩
  | cons ev rest ih =>
    obtain ⟨l₁, drawn₁, hfirst, horderly⟩ := h.undergo ev
    obtain ⟨l', drawn', hrest, horderly'⟩ := ih horderly
    refine ⟨l', drawn', ?_, horderly'⟩
    rw [SchemaLife.run, hfirst]
    exact hrest

/-- Numbers that were drawn one after the other are given to one object each. -/
theorem IsOrderly.nodup_assigned (h : l.IsOrderly drawn) : l.assigned.Nodup := by
  obtain ⟨m, -, hsafe, -⟩ := h.inStep.numbers
  -- The numbers ascend, and they are words below 2³², so that their identifiers differ.
  refine h.assigned.nodup (List.pairwise_map.mpr ?_)
  refine hsafe.ordered.imp_of_mem fun {v w} hv hw hlt hsame => ?_
  have hvalue := h.inStep.within v hv
  have hvalue' := h.inStep.within w hw
  have hone : 0 < (1 : Int64).toInt := by decide
  unfold along at hlt
  rw [if_pos hone, if_pos hone] at hlt
  have hnat := congrArg (fun id : ObjectId => id.val.toNat) hsame
  simp only [Schema.objectIdOf, UInt32.toNat_ofNat'] at hnat
  omega

end SchemaLife

/-! ## Main result -/

/-- From an empty catalog that does not fail, whatever happens to a schema: the sequences that it
knows and that are not temporary are those with an entry in its catalog, apart from the sequence
that numbers the objects; a schema that is opened on the catalog knows exactly these, with the same
numbers, names, steps, bounds, caches and flags; and no number was ever given to two objects. -/
theorem Schema.keeps_in_step {catalog : Catalog} (hready : catalog.IsReady)
    (hempty : catalog.store.committed = Table.empty) (defaultCache : Int64)
    (events : List SchemaEvent) :
    ∃ schema catalog' l, openWithCache defaultCache catalog = (.ok schema, catalog') ∧
      (SchemaLife.mk schema []).run events = .ok l ∧
      (∀ name, (∃ s, l.schema.sequences.get? name = some s ∧ s.temporary = false) ↔
        name ≠ objectIdsName ∧
          ∃ e ∈ l.schema.catalog.entries, e.kind = .sequence ∧ e.name = name) ∧
      (∀ cache, ∃ again, openWithCache cache l.schema.catalog = (.ok again, l.schema.catalog) ∧
        ∀ name, (again.sequences.get? name).map Sequence.attributes =
          ((l.schema.sequences.get? name).filter fun s => !s.temporary).map
            Sequence.attributes) ∧
      l.assigned.Nodup := by
  obtain ⟨schema, catalog', hopen, hinstep⟩ := isInStep_of_empty hready hempty defaultCache
  have hstart : (SchemaLife.mk schema []).IsOrderly [] := ⟨hinstep, .slnil⟩
  -- The invariant of the run gives each part.
  obtain ⟨l, drawn, hrun, horderly⟩ := hstart.run events
  have hkept := horderly.inStep
  refine ⟨schema, catalog', l, hopen, hrun, fun name => ⟨?_, ?_⟩, fun cache => ?_,
    horderly.nodup_assigned⟩
  · -- A lasting sequence has an entry, as reopening finds it again.
    rintro ⟨s, hs, htemporary⟩
    obtain ⟨d, hagain, -⟩ := hkept.exists_takenUp hs htemporary
    obtain ⟨hfree, e, he, hname, d', hd, -⟩ := (hkept.get?_takenUpAgain _ _).mp hagain
    exact ⟨hfree, e, he, congrArg CatalogObject.kind hd, hname⟩
  · -- An entry under a name that is not reserved was made for a sequence in the registry.
    rintro ⟨hfree, e, he, hkind, rfl⟩
    have hentry := hkept.ready.get?_of_mem hkept.sorted he
    rw [CatalogEntry.key, hkind] at hentry
    exact (hkept.entries hentry).resolve_left hfree
  · obtain ⟨again, hopen', -, hsequences⟩ := hkept.reopen cache
    exact ⟨again, hopen', fun name => hsequences ▸ hkept.attributes_takenUpAgain name⟩

/-- A sequence of a row table and a temporary one are created and used, and the schema is lost; the
table is dropped in another one, which goes on behind the numbers that were reserved. -/
theorem Schema.keeps_in_step_of_lost_schema :
    let events : List SchemaEvent :=
      [.createTableSequence "rows" 5 2, .createSequence "scratch" { SequenceOptions.basic with
          temporary := true },
        .call "rows" .next, .call "scratch" (.setCycle true), .nextObjectId, .reopen 8,
        .createSequence "lines" .basic, .dropSequence "rows", .dropTableSequence "rows"]
    Catalog.inMemory.IsReady ∧ ∃ schema catalog' l,
      openWithCache 4 .inMemory = (.ok schema, catalog') ∧
        (SchemaLife.mk schema []).run events = .ok l ∧
        l.assigned = [⟨1⟩, ⟨2⟩, ⟨3⟩, ⟨33⟩] ∧
        ∀ cache, ∃ again, openWithCache cache l.schema.catalog = (.ok again, l.schema.catalog) ∧
          (again.sequences.get? "lines").map Sequence.attributes =
            some ⟨⟨33⟩, "lines", 0, 1, 1, Int64.maxValue, 8, false, false, false⟩ ∧
          again.sequences.get? "scratch" = none := by
  intro events
  obtain ⟨schema, catalog', l, hopen, hrun, -, hagain, -⟩ :=
    Schema.keeps_in_step Catalog.isReady_inMemory rfl 4 events
  -- What the theorem leaves open of this life is computed, once.
  have hlife : (match openWithCache 4 .inMemory with
      | (.ok schema, _) =>
        match (SchemaLife.mk schema []).run events with
        | .ok l => some (l.assigned, ((l.schema.sequences.get? "lines").filter fun s =>
            !s.temporary).map Sequence.attributes, (l.schema.sequences.get? "scratch").isNone)
        | .error _ => none
      | (.error _, _) => none) = some ([⟨1⟩, ⟨2⟩, ⟨3⟩, ⟨33⟩],
        some ⟨⟨33⟩, "lines", 0, 1, 1, Int64.maxValue, 8, false, false, false⟩, true) := by
    decide +kernel
  rw [hopen] at hlife
  dsimp only at hlife
  rw [hrun] at hlife
  obtain ⟨hassigned, hrest⟩ := Prod.mk.inj (Option.some.inj hlife)
  obtain ⟨hlines, hscratch⟩ := Prod.mk.inj hrest
  refine ⟨Catalog.isReady_inMemory, schema, catalog', l, hopen, hrun, hassigned, fun cache => ?_⟩
  obtain ⟨again, hopen', hsame⟩ := hagain cache
  -- The temporary sequence is gone from the registry that is opened again.
  have hunknown := hsame "scratch"
  rw [Option.isNone_iff_eq_none.mp hscratch] at hunknown
  exact ⟨again, hopen', (hsame "lines").trans hlines, Option.map_eq_none_iff.mp hunknown⟩

end TxnStore
