import TxnStore.Proofs.Schema.Names

/-!
# Sequences that were dropped

A sequence that the schema has dropped can still be used by those who hold it. It goes on as it was
when it was dropped, and it knows nothing of the drop: a margin that is news to it is written to the
catalog under its name, where there may be nothing any more, or the entry of another sequence that
was created under that name. As long as none of its margins is news, the schema and its catalog are
what they would be without it, and the name stays away until a sequence is created under it.
-/

namespace TxnStore

open TxnStore.Action

/-! ## What a step writes -/

/-- The definition that a step goes to the catalog with, if it goes there. -/
def SequenceStep.written? (step : SequenceStep) (s : Sequence) : Option SequenceDefinition :=
  match step.moves s with
  | (_, none) => none
  | (t, some r) => if t.shouldFlush r && !t.temporary then some (t.definitionAt r.margin) else none

/-- Whether none of the steps goes to the catalog. -/
def Sequence.staysAway (s : Sequence) : List SequenceStep → Bool
  | [] => true
  | step :: rest => (step.written? s).isNone && (step.moves s).1.staysAway rest

/-- A catalog once a definition was written to it, or could not be: nothing but the entry under its
name is another one, and if no call of the catalog fails, that entry is the definition. -/
structure Catalog.Receives (c : Catalog) (d : SequenceDefinition) (c' : Catalog) : Prop where
  others : ∀ key, key ≠ ⟨.sequence, d.name⟩ → c'.entry? key = c.entry? key
  stored : c.IsReady → c'.entry? ⟨.sequence, d.name⟩ = some (.ofSequence d)

namespace SequenceStep

variable {step : SequenceStep} {s : Sequence} {d : SequenceDefinition}

theorem runOn_of_written?_eq_none (hpersistent : s.temporary = false)
    (h : step.written? s = none) (catalog : Catalog) :
    (step.action.runOn ⟨s, catalog⟩).2 = ⟨(step.moves s).1, catalog⟩ := by
  have hkept := (step.moves_keep s).2.trans hpersistent
  rw [step.runOn_moves]
  rw [written?] at h
  -- The step stores nothing, or it stores what is no news.
  rcases hmoves : step.moves s with ⟨t, _ | r⟩
  · rfl
  · rw [hmoves] at h hkept
    dsimp only at h hkept
    have hnews : t.shouldFlush r = false := by simpa [hkept] using h
    exact StoredSequence.storing_of_not_shouldFlush hnews catalog

theorem receives_of_written?_eq_some (h : step.written? s = some d) {catalog : Catalog}
    (hidle : catalog.IsIdle) :
    d.name = s.name ∧ catalog.Receives d (step.action.runOn ⟨s, catalog⟩).2.catalog := by
  have hname := (step.moves_keep s).1
  rw [step.runOn_moves]
  rw [written?] at h
  rcases hmoves : step.moves s with ⟨t, _ | r⟩
  · rw [hmoves] at h
    cases h
  rw [hmoves] at h hname
  dsimp only at h hname ⊢
  split at h
  case isFalse => cases h
  next hwrites =>
  -- A step that writes has news of a lasting sequence.
  obtain ⟨hnews, hpersistent⟩ : t.shouldFlush r = true ∧ t.temporary = false := by
    simpa using hwrites
  obtain rfl := Option.some.inj h
  -- The catalog may fail in the first part, where it is enough that nothing else is written.
  refine ⟨hname, fun key hkey => ?_, fun hready => ?_⟩
  · -- Other entries are left, whether the commit goes through or not.
    obtain ⟨catalog', hidle', ⟨hrun, hcommitted, -⟩ | ⟨err, hrun, hcommitted⟩⟩ :=
      StoredSequence.flushMargin_cases (p := ⟨t, catalog⟩) hidle hpersistent hnews
    · rw [StoredSequence.storing, hrun, hidle'.entry?_eq, hcommitted, hidle.entry?_eq]
      exact Table.get?_insert_ne _ hkey _
    · rw [StoredSequence.storing, hrun, hidle'.entry?_eq, hcommitted, hidle.entry?_eq]
  · -- With a catalog that works, the entry of the sequence is the definition that was written.
    obtain ⟨catalog', -, hstored, hrun⟩ :=
      StoredSequence.runOn_flushMargin (p := ⟨t, catalog⟩) hready hpersistent hnews
    rw [StoredSequence.storing, hrun]
    exact hstored

end SequenceStep

/-! ## A schema and what befalls it -/

/-- What can happen to a schema, on a catalog that may fail. -/
inductive SchemaStep where
  | event (ev : SchemaEvent)
  /-- A margin named for the sequence that is known by a name; there is none where the name is
  unknown. -/
  | flush (name : String) (target : Int64)
  /-- From now on these calls of the catalog fail. -/
  | setFaults (faults : CatalogFaults)

/-- The name under which a sequence is to be created. -/
def SchemaStep.created? : SchemaStep → Option String
  | .event (.createSequence name _) => some name
  | .event (.createTableSequence name _ _) => some name
  | _ => none

namespace SchemaLife

def step (l : SchemaLife) : SchemaStep → Except StoreError SchemaLife
  | .event ev => l.undergo ev
  | .flush name target =>
    match l.schema.sequences.get? name with
    | none => .ok l
    | some s =>
      let a := (SequenceStep.flush target).action
      .ok { l with schema := ((Schema.onSequence name s a).runOn l.schema).2 }
  | .setFaults faults =>
    .ok { l with schema := { l.schema with catalog := l.schema.catalog.withFaults faults } }

/-- The life after steps one after the other. -/
def steps (l : SchemaLife) : List SchemaStep → Except StoreError SchemaLife
  | [] => .ok l
  | st :: rest =>
    match l.step st with
    | .ok l' => l'.steps rest
    | .error err => .error err

variable {l l' : SchemaLife}

theorem schema_goOn {α : Type} (l : SchemaLife) (id : α → ObjectId)
    (r : Except StoreError α × Schema) : (l.goOn id r).schema = r.2 := by
  obtain ⟨_ | _, schema⟩ := r <;> rfl

/-- A step of a sequence that the schema knows brings in no name. -/
theorem follows_onSequence (h : l.schema.IsNamed) {name : String} {s : Sequence}
    (hs : l.schema.sequences.get? name = some s) (step : SequenceStep) :
    l.schema.Follows none ((Schema.onSequence name s step.action).runOn l.schema).2 :=
  h.onSequence (Schema.IsNamed.mem_keys hs) (h.known (name, s) (Table.mem_of_find? hs)).1
    fun _ => rfl

theorem follows_undergo (h : l.schema.IsNamed) {ev : SchemaEvent} (hev : l.undergo ev = .ok l') :
    l.schema.Follows (SchemaStep.event ev).created? l'.schema := by
  -- An event that fails leaves the life as it is, and so every event is traced to one operation.
  cases ev with
  | createSequence name options =>
    rw [← Except.ok.inj hev, schema_goOn]
    exact h.createSequence name options
  | createTableSequence name start increment =>
    rw [← Except.ok.inj hev, schema_goOn]
    exact h.createSequence name _
  | dropSequence name =>
    rw [← Except.ok.inj hev]
    exact h.dropSequence name
  | dropTableSequence name =>
    rw [← Except.ok.inj hev]
    exact h.dropTableSequence name
  -- A call to a sequence that the schema does not know has no effect.
  | call name c =>
    simp only [undergo] at hev
    cases hs : l.schema.sequences.get? name with
    | none =>
      rw [hs] at hev
      rw [← Except.ok.inj hev]
      exact .refl h
    | some s =>
      rw [hs] at hev
      rw [← Except.ok.inj hev]
      exact follows_onSequence h hs (.call c)
  | nextObjectId =>
    rw [← Except.ok.inj hev, schema_goOn]
    exact h.nextObjectId
  | close =>
    rw [← Except.ok.inj hev]
    exact h.close
  | reopen cache =>
    simp only [undergo] at hev
    rcases hopen : Schema.openWithCache cache l.schema.catalog with ⟨err | schema, c⟩
    · rw [hopen] at hev
      cases hev
    · rw [hopen] at hev
      rw [← Except.ok.inj hev]
      -- What is known next comes from the entries alone.
      obtain ⟨hnamed, hlacks⟩ := Schema.isNamed_of_openWithCache h.idle h.stored hopen
      exact ⟨hnamed, fun _ hold => hlacks hold.free hold.absent⟩

theorem follows_step (h : l.schema.IsNamed) {st : SchemaStep} (hst : l.step st = .ok l') :
    l.schema.Follows st.created? l'.schema := by
  -- A step is an event, a flush by name, or a change of what fails.
  cases st with
  | event ev => exact follows_undergo h hst
  | flush name target =>
    simp only [step] at hst
    cases hs : l.schema.sequences.get? name with
    | none =>
      rw [hs] at hst
      rw [← Except.ok.inj hst]
      exact .refl h
    | some s =>
      rw [hs] at hst
      rw [← Except.ok.inj hst]
      exact follows_onSequence h hs (.flush target)
  | setFaults faults =>
    rw [← Except.ok.inj hst]
    exact h.withFaults faults

/-- A name stays away until a sequence is to be created under it. -/
theorem lacks_steps (h : l.schema.IsNamed) {sts : List SchemaStep} (hsts : l.steps sts = .ok l') :
    l'.schema.IsNamed ∧ ∀ {name}, (∀ st ∈ sts, st.created? ≠ some name) →
      l.schema.Lacks name → l'.schema.Lacks name := by
  -- By induction on the steps, of which each one lets the name be created or leaves it lacking.
  induction sts generalizing l with
  | nil =>
    rw [← Except.ok.inj hsts]
    exact ⟨h, fun _ hlacks => hlacks⟩
  | cons st rest ih =>
    rw [steps] at hsts
    cases hst : l.step st with
    | error err =>
      rw [hst] at hsts
      cases hsts
    | ok l₁ =>
      rw [hst] at hsts
      have hfirst := follows_step h hst
      obtain ⟨hnamed, hlater⟩ := ih hfirst.named hsts
      refine ⟨hnamed, fun hcreated hlacks => hlater ?_ ?_⟩
      · exact fun st' hst' => hcreated st' (List.mem_cons_of_mem _ hst')
      · exact hfirst.lacks (hcreated st List.mem_cons_self) hlacks

end SchemaLife

/-! ## Dropping -/

theorem Catalog.Lacks.entry?_eq_none {c : Catalog} {name : String} (h : c.Lacks name) :
    c.entry? ⟨.sequence, name⟩ = none :=
  List.find?_eq_none.mpr fun e he => by simpa using h e he

namespace Schema

variable {schema dropped : Schema} {name : String} {held : Sequence}

/-- A schema has dropped a sequence, which stood for itself or numbered the rows of a table. -/
def Drops (schema : Schema) (name : String) (dropped : Schema) : Prop :=
  (dropSequence name).runOn schema = (.ok (), dropped) ∨
    (dropTableSequence name).runOn schema = (.ok (), dropped)

theorem Drops.runOn_removeSequence (h : schema.Drops name dropped)
    (hheld : schema.sequences.get? name = some held) :
    (removeSequence name held).runOn schema = (.ok (), dropped) := by
  -- Either way of dropping comes down to the removal of the sequence that is held.
  rcases h with hdrop | hdrop
  · rw [dropSequence, runOn_bind, runOn_get] at hdrop
    dsimp only at hdrop
    rw [hheld] at hdrop
    dsimp only at hdrop
    split at hdrop
    · cases hdrop
    · exact hdrop
  · rw [dropTableSequence, runOn_bind, runOn_get] at hdrop
    dsimp only at hdrop
    rw [hheld] at hdrop
    exact hdrop

/-- Once a sequence is dropped, nothing goes by its name. -/
theorem IsNamed.drops (h : schema.IsNamed) (hheld : schema.sequences.get? name = some held)
    (hpersistent : held.temporary = false) (hdrop : schema.Drops name dropped) :
    dropped.IsNamed ∧ dropped.Lacks name := by
  have hrun := hdrop.runOn_removeSequence hheld
  have hfollows := h.removeSequence name held
  rw [hrun] at hfollows
  refine ⟨hfollows.named, ?_⟩
  have hfree := (h.known (name, held) (Table.mem_of_find? hheld)).2
  -- A lasting sequence is removed from the catalog first, which may fail.
  rw [Schema.removeSequence, hpersistent, Bool.not_false, if_pos rfl, runOn_bind, onCatalog,
    runOn_onPart] at hrun
  obtain ⟨catalog, hidle, ⟨hforget, hcommitted⟩ | ⟨err, hforget, -⟩⟩ :=
    h.idle.forget_cases ⟨.sequence, name⟩
  · -- The entry goes first, and then the schema forgets the sequence.
    rw [hforget] at hrun
    obtain rfl := (Prod.mk.inj hrun).2
    refine ⟨hfree, Table.find?_eq_none_iff.mp (Table.get?_erase_self schema.sequences name), ?_⟩
    intro e he hkey
    obtain ⟨b, hb, rfl⟩ := List.mem_map.mp he
    have hfiled := hidle.filed b hb
    rw [hcommitted] at hb
    exact of_decide_eq_true (List.mem_filter.mp hb).2 (hfiled.symm.trans hkey)
  · -- A removal that fails is no drop, and so this case does not arise.
    rw [hforget] at hrun
    cases hrun

end Schema

/-! ## A sequence that is held -/

/-- A schema, and a sequence that it has dropped and that is still held. -/
structure HandleLife where
  life : SchemaLife
  handle : Sequence

/-- What can happen to the schema, or a step of the sequence that is held. -/
inductive HandleStep where
  | schema (st : SchemaStep)
  | handle (step : SequenceStep)

namespace HandleStep

def schema? : HandleStep → Option SchemaStep
  | schema st => some st
  | handle _ => none

def handle? : HandleStep → Option SequenceStep
  | schema _ => none
  | handle step => some step

end HandleStep

namespace HandleLife

/-- The sequence that is held uses the catalog of the schema, which does not know of it. -/
def step (h : HandleLife) : HandleStep → Except StoreError HandleLife
  | .schema st =>
    match h.life.step st with
    | .ok life => .ok { h with life }
    | .error err => .error err
  | .handle step =>
    let p := (step.action.runOn ⟨h.handle, h.life.schema.catalog⟩).2
    .ok ⟨{ h.life with schema := { h.life.schema with catalog := p.catalog } }, p.sequence⟩

/-- What becomes of the two after steps one after the other. -/
def run (h : HandleLife) : List HandleStep → Except StoreError HandleLife
  | [] => .ok h
  | st :: rest =>
    match h.step st with
    | .ok h' => h'.run rest
    | .error err => .error err

variable {h h' : HandleLife} {name : String}

/-- While the sequence that is held stays away from the catalog, all goes on as without it. -/
theorem run_of_staysAway (hpersistent : h.handle.temporary = false) {steps : List HandleStep}
    (haway : h.handle.staysAway (steps.filterMap HandleStep.handle?) = true) :
    (h.run steps).map life = h.life.steps (steps.filterMap HandleStep.schema?) := by
  -- By induction on the steps, of which the handle's write nothing.
  induction steps generalizing h with
  | nil => rfl
  | cons st rest ih =>
    cases st with
    | schema st =>
      rw [run, step]
      show _ = h.life.steps (st :: rest.filterMap HandleStep.schema?)
      rw [SchemaLife.steps]
      cases h.life.step st with
      | error err => rfl
      | ok life => exact ih (h := ⟨life, h.handle⟩) hpersistent haway
    | handle step =>
      -- The step moves the sequence that is held, and the schema has no part in that.
      obtain ⟨hquiet, hrest⟩ := Bool.and_eq_true_iff.mp haway
      have hkept := (step.moves_keep h.handle).2.trans hpersistent
      have hrun := SequenceStep.runOn_of_written?_eq_none hpersistent
        (Option.isNone_iff_eq_none.mp hquiet) h.life.schema.catalog
      rw [run, HandleLife.step, hrun]
      exact ih (h := ⟨h.life, (step.moves h.handle).1⟩) hkept hrest

/-- A sequence that is held under a name, beside a schema that may have another one of that name. -/
structure IsApart (h : HandleLife) (name : String) : Prop where
  named : h.life.schema.IsNamed
  goes : h.handle.name = name
  persistent : h.handle.temporary = false

theorem IsApart.step (h₀ : h.IsApart name) {st : HandleStep} (hst : h.step st = .ok h') :
    h'.IsApart name := by
  cases st with
  -- The schema's own steps keep its invariant, and they leave the handle alone.
  | schema st =>
    rw [HandleLife.step] at hst
    cases hlife : h.life.step st with
    | error err =>
      rw [hlife] at hst
      cases hst
    | ok life =>
      rw [hlife] at hst
      obtain rfl := Except.ok.inj hst
      exact ⟨(SchemaLife.follows_step h₀.named hlife).named, h₀.goes, h₀.persistent⟩
  | handle step =>
    obtain rfl := Except.ok.inj hst
    -- For the schema this is as if a sequence of the name were created.
    obtain ⟨hgains, hname, htemporary⟩ := step.gains (s := h.handle) h₀.named.idle
    have hfollows : h.life.schema.Follows (some h.handle.name) { h.life.schema with
        catalog := (step.action.runOn ⟨h.handle, h.life.schema.catalog⟩).2.catalog } :=
      h₀.named.follows (.inr (.inr rfl)) hgains h₀.named.numbering fun b hb => .inl hb
    exact ⟨hfollows.named, hname.trans h₀.goes, htemporary.trans h₀.persistent⟩

theorem IsApart.run (h₀ : h.IsApart name) {steps : List HandleStep}
    (hrun : h.run steps = .ok h') : h'.IsApart name := by
  induction steps generalizing h with
  | nil =>
    rw [← Except.ok.inj hrun]
    exact h₀
  | cons st rest ih =>
    rw [HandleLife.run] at hrun
    cases hst : h.step st with
    | error err =>
      rw [hst] at hrun
      cases hrun
    | ok h₁ =>
      rw [hst] at hrun
      exact ih (h₀.step hst) hrun

end HandleLife

/-! ## Main result -/

namespace Schema

/-- A sequence that was dropped has no entry. Whatever happens to the schema and to a sequence that
is still held after that: as long as the latter stays away from the catalog, the schema and its
catalog are what they would be without it, and there is no entry until a sequence is created under
the name. A step that does go to the catalog changes the entry under the name and no other, and it
puts the definition of the sequence that is held there, whether there is an entry or not. -/
theorem handle_after_drop {c c' : Catalog} {cache : Int64} {schema dropped : Schema}
    {before : List SchemaStep} {l : SchemaLife} {name : String} {held : Sequence}
    (hidle : c.IsIdle) (hnamed : c.IsNamed) (hopen : openWithCache cache c = (.ok schema, c'))
    (hbefore : (SchemaLife.mk schema []).steps before = .ok l)
    (hheld : l.schema.sequences.get? name = some held) (hpersistent : held.temporary = false)
    (hdrop : l.schema.Drops name dropped) :
    dropped.catalog.entry? ⟨.sequence, name⟩ = none ∧
      (∀ steps, held.staysAway (steps.filterMap HandleStep.handle?) = true →
        ((HandleLife.mk ⟨dropped, l.assigned⟩ held).run steps).map HandleLife.life =
          (SchemaLife.mk dropped l.assigned).steps (steps.filterMap HandleStep.schema?)) ∧
      ∀ steps h, (HandleLife.mk ⟨dropped, l.assigned⟩ held).run steps = .ok h →
        (held.staysAway (steps.filterMap HandleStep.handle?) = true →
          (∀ st ∈ steps.filterMap HandleStep.schema?, st.created? ≠ some name) →
          h.life.schema.catalog.entry? ⟨.sequence, name⟩ = none) ∧
        ∀ step : SequenceStep,
          let after := (step.action.runOn ⟨h.handle, h.life.schema.catalog⟩).2.catalog
          match step.written? h.handle with
          | none => after = h.life.schema.catalog
          | some d => d.name = name ∧ h.life.schema.catalog.Receives d after := by
  obtain ⟨hnamed₀, -⟩ := isNamed_of_openWithCache hidle hnamed hopen
  have hnamed₁ := (SchemaLife.lacks_steps hnamed₀ hbefore).1
  obtain ⟨hnamed₂, hlacks⟩ := hnamed₁.drops hheld hpersistent hdrop
  -- The name is lacking right after the drop, and the three parts are about what comes then.
  refine ⟨hlacks.absent.entry?_eq_none,
    fun steps haway => HandleLife.run_of_staysAway (h := ⟨⟨dropped, l.assigned⟩, held⟩)
      hpersistent haway, fun steps h hrun => ⟨?_, ?_⟩⟩
  · intro haway hcreated
    have hlife := HandleLife.run_of_staysAway (h := ⟨⟨dropped, l.assigned⟩, held⟩) hpersistent haway
    rw [hrun] at hlife
    exact ((SchemaLife.lacks_steps hnamed₂ hlife.symm).2 hcreated hlacks).absent.entry?_eq_none
  · -- A step of the handle writes under its old name, or it writes nothing.
    intro step after
    have hgoes := (hnamed₁.known (name, held) (Table.mem_of_find? hheld)).1
    have hstart : (HandleLife.mk ⟨dropped, l.assigned⟩ held).IsApart name :=
      ⟨hnamed₂, hgoes, hpersistent⟩
    have hapart := hstart.run hrun
    cases hwritten : step.written? h.handle with
    | none =>
      exact congrArg StoredSequence.catalog
        (SequenceStep.runOn_of_written?_eq_none hapart.persistent hwritten h.life.schema.catalog)
    | some d =>
      obtain ⟨hname, hreceives⟩ :=
        SequenceStep.receives_of_written?_eq_some hwritten hapart.named.idle
      exact ⟨hname.trans hapart.goes, hreceives⟩

/-- A sequence that reserves three numbers is dropped after the first one. The other two are handed
out and a margin before theirs is named, while another sequence is created; the catalog does not get
to know. The number after them brings the entry back. -/
theorem handle_after_drop_of_reserved_numbers :
    let before : List SchemaStep :=
      [.event (.createSequence "rows" { SequenceOptions.basic with cacheSize := some 3 }),
        .event (.call "rows" .next)]
    let steps : List HandleStep := [.handle (.call .next),
      .schema (.event (.createSequence "lines" .basic)), .handle (.flush 2), .handle (.call .next)]
    ∃ schema c l held dropped h, Catalog.inMemory.IsIdle ∧ Catalog.inMemory.IsNamed ∧
      openWithCache 32 .inMemory = (.ok schema, c) ∧
      (SchemaLife.mk schema []).steps before = .ok l ∧
      l.schema.sequences.get? "rows" = some held ∧ held.temporary = false ∧
      l.schema.Drops "rows" dropped ∧
      (HandleLife.mk ⟨dropped, l.assigned⟩ held).run steps = .ok h ∧
      (SchemaLife.mk dropped l.assigned).steps (steps.filterMap HandleStep.schema?) = .ok h.life ∧
      h.life.schema.catalog.entry? ⟨.sequence, "rows"⟩ = none ∧
      h.life.schema.catalog.Receives
        ⟨⟨1⟩, "rows", 7, 1, 1, Int64.maxValue, 3, false, false, false⟩
        ((SequenceStep.call .next).action.runOn ⟨h.handle, h.life.schema.catalog⟩).2.catalog := by
  intro before steps
  let d : SequenceDefinition := ⟨⟨1⟩, "rows", 7, 1, 1, Int64.maxValue, 3, false, false, false⟩
  -- The life up to the last call is computed in one go.
  have hlife : (do
      let schema ← (openWithCache 32 .inMemory).1.toOption
      let l ← ((SchemaLife.mk schema []).steps before).toOption
      let held ← l.schema.sequences.get? "rows"
      let r := (dropSequence "rows").runOn l.schema
      let _ ← r.1.toOption
      let h ← ((HandleLife.mk ⟨r.2, l.assigned⟩ held).run steps).toOption
      return (held.temporary, held.staysAway (steps.filterMap HandleStep.handle?),
        (SequenceStep.call .next).written? h.handle)) = some (false, true, some d) := by
    decide +kernel
  -- Each bind of the computation gives one state, and the equation that it was reached by.
  obtain ⟨schema, hopen, hlife⟩ := Option.bind_eq_some_iff.mp hlife
  obtain ⟨l, hbefore, hlife⟩ := Option.bind_eq_some_iff.mp hlife
  obtain ⟨held, hheld, hlife⟩ := Option.bind_eq_some_iff.mp hlife
  obtain ⟨_, hdrop, hlife⟩ := Option.bind_eq_some_iff.mp hlife
  obtain ⟨h, hrun, hlife⟩ := Option.bind_eq_some_iff.mp hlife
  obtain ⟨hpersistent, hrest⟩ := Prod.mk.inj (Option.some.inj hlife)
  obtain ⟨haway, hwritten⟩ := Prod.mk.inj hrest
  replace hopen := eq_ok_of_toOption_fst hopen
  replace hbefore := eq_ok_of_toOption hbefore
  replace hdrop : l.schema.Drops "rows" _ := .inl (eq_ok_of_toOption_fst hdrop)
  replace hrun := eq_ok_of_toOption hrun
  have hnamed : Catalog.inMemory.IsNamed := fun e he => nomatch he
  obtain ⟨-, hsame, hafter⟩ := handle_after_drop Catalog.isReady_inMemory.idle hnamed hopen hbefore
    hheld hpersistent hdrop
  have hlife' := hsame steps haway
  rw [hrun] at hlife'
  obtain ⟨habsent, hwrites⟩ := hafter steps h hrun
  have hreceives := hwrites (.call .next)
  rw [hwritten] at hreceives
  refine ⟨schema, _, l, held, _, h, Catalog.isReady_inMemory.idle, hnamed, hopen, hbefore,
    hheld, hpersistent, hdrop, hrun, hlife'.symm, habsent haway ?_, hreceives.2⟩
  -- The only sequence created afterwards has another name.
  intro st hst
  obtain rfl := List.mem_singleton.mp hst
  decide

/-- A sequence that reserves one number at a time is dropped and asked for a number. This brings its
entry back, which was gone; and where another sequence was created under the name in the meantime,
the entry of that one is replaced. -/
theorem dropped_sequence_writes_entry :
    let options : SequenceOptions := { SequenceOptions.basic with cacheSize := some 1 }
    let other : SequenceOptions := { SequenceOptions.basic with start := some 100 }
    let create (o : SequenceOptions) : SchemaStep := .event (.createSequence "rows" o)
    let d : SequenceDefinition := ⟨⟨1⟩, "rows", 2, 1, 1, Int64.maxValue, 1, false, false, false⟩
    let d' : SequenceDefinition := ⟨⟨2⟩, "rows", 100, 1, 1, Int64.maxValue, 32, false, false, false⟩
    ∃ schema c l held dropped h₁ h₂ h₃, openWithCache 32 .inMemory = (.ok schema, c) ∧
      (SchemaLife.mk schema []).steps [create options] = .ok l ∧
      l.schema.sequences.get? "rows" = some held ∧ l.schema.Drops "rows" dropped ∧
      dropped.catalog.entry? ⟨.sequence, "rows"⟩ = none ∧
      (HandleLife.mk ⟨dropped, l.assigned⟩ held).run [.handle (.call .next)] = .ok h₁ ∧
      h₁.life.schema.catalog.entry? ⟨.sequence, "rows"⟩ = some (.ofSequence d) ∧
      (HandleLife.mk ⟨dropped, l.assigned⟩ held).run [.schema (create other)] = .ok h₂ ∧
      h₂.life.schema.catalog.entry? ⟨.sequence, "rows"⟩ = some (.ofSequence d') ∧
      h₂.run [.handle (.call .next)] = .ok h₃ ∧
      h₃.life.schema.catalog.entry? ⟨.sequence, "rows"⟩ = some (.ofSequence d) := by
  intro options other create d d'
  -- The three states of the schema are computed along one life.
  have hlife : (do
      let schema ← (openWithCache 32 .inMemory).1.toOption
      let l ← ((SchemaLife.mk schema []).steps [create options]).toOption
      let held ← l.schema.sequences.get? "rows"
      let r := (dropSequence "rows").runOn l.schema
      let _ ← r.1.toOption
      let start : HandleLife := ⟨⟨r.2, l.assigned⟩, held⟩
      let h₁ ← (start.run [.handle (.call .next)]).toOption
      let h₂ ← (start.run [.schema (create other)]).toOption
      let h₃ ← (h₂.run [.handle (.call .next)]).toOption
      return [start, h₁, h₂, h₃].map
        fun h => h.life.schema.catalog.entry? ⟨.sequence, "rows"⟩) =
      some [none, some (.ofSequence d), some (.ofSequence d'), some (.ofSequence d)] := by
    decide +kernel
  obtain ⟨schema, hopen, hlife⟩ := Option.bind_eq_some_iff.mp hlife
  obtain ⟨l, hbefore, hlife⟩ := Option.bind_eq_some_iff.mp hlife
  obtain ⟨held, hheld, hlife⟩ := Option.bind_eq_some_iff.mp hlife
  obtain ⟨_, hdrop, hlife⟩ := Option.bind_eq_some_iff.mp hlife
  obtain ⟨h₁, hfirst, hlife⟩ := Option.bind_eq_some_iff.mp hlife
  obtain ⟨h₂, hagain, hlife⟩ := Option.bind_eq_some_iff.mp hlife
  obtain ⟨h₃, hlast, hlife⟩ := Option.bind_eq_some_iff.mp hlife
  obtain ⟨habsent, hrest⟩ := List.cons.inj (Option.some.inj hlife)
  obtain ⟨hback, hrest⟩ := List.cons.inj hrest
  obtain ⟨hcreated, hrest⟩ := List.cons.inj hrest
  exact ⟨schema, _, l, held, _, h₁, h₂, h₃, eq_ok_of_toOption_fst hopen,
    eq_ok_of_toOption hbefore, hheld, .inl (eq_ok_of_toOption_fst hdrop), habsent,
    eq_ok_of_toOption hfirst, hback, eq_ok_of_toOption hagain, hcreated, eq_ok_of_toOption hlast,
    (List.cons.inj hrest).1⟩

end Schema

end TxnStore
