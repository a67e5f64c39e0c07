import TxnStore.Proofs.Catalog.Faults
import TxnStore.Proofs.Sequences.Attributes
import TxnStore.Proofs.Sequences.Incarnations

/-!
# Margins that could not be stored

A sequence moves its margin on before it stores it. If storing fails, the call that asked for it
fails, but the calls after it hand out numbers up to the margin that no catalog knows of. Those
numbers are exposed: a sequence that is rebuilt may hand them out again. All others are handed out
once, whichever margins were lost before them.
-/

namespace TxnStore

open TxnStore.Action

/-! ## Runs on a catalog that may fail -/

/-- Whether the next call moves the margin on. -/
def Sequence.reserves (s : Sequence) : Bool := !s.isPastBound && s.isUsedUp

/-- A sequence with the numbers that it handed out. -/
structure MarginWatch where
  stored : StoredSequence
  /-- Whether the margin was moved on without being stored. -/
  lost : Bool
  /-- The numbers handed out, the oldest first. -/
  handed : List Int64
  /-- The numbers handed out since a margin was lost, as long as none was stored after it. -/
  exposed : List Int64

namespace MarginWatch

def start (p : StoredSequence) : MarginWatch := ⟨p, false, [], []⟩

/-- The watch with calls of the catalog set to fail. -/
def withFaults (w : MarginWatch) (faults : CatalogFaults) : MarginWatch :=
  { w with stored := ⟨w.stored.sequence, w.stored.catalog.withFaults faults⟩ }

/-- The watch after one more number was asked for. -/
def ask (w : MarginWatch) : MarginWatch :=
  let reserves := w.stored.sequence.reserves
  match StoredSequence.next.runOn w.stored with
  | (.ok v, p) =>
    let lost := w.lost && !reserves
    ⟨p, lost, w.handed ++ [v], if lost then w.exposed ++ [v] else []⟩
  | (.error _, p) => { w with stored := p, lost := w.lost || reserves }

/-- The watch after one more number was asked for while calls of the catalog were set to fail. -/
def call (w : MarginWatch) (faults : CatalogFaults) : MarginWatch := (w.withFaults faults).ask

/-- The watch after numbers were asked for one after the other. -/
def run (w : MarginWatch) (faults : List CatalogFaults) : MarginWatch := faults.foldl call w

end MarginWatch

/-! ## Storing a margin -/

/-- A margin that is news is stored, or it is lost and the catalog stays as it is. -/
theorem StoredSequence.flushMargin_cases {p : StoredSequence} {r : Reservation}
    (hidle : p.catalog.IsIdle) (htemporary : p.sequence.temporary = false)
    (hnews : p.sequence.shouldFlush r = true) :
    ∃ catalog, catalog.IsIdle ∧
      (((flushMargin r).runOn p = (.ok (), ⟨p.sequence.flushed r, catalog⟩) ∧
          catalog.store.committed = p.catalog.store.committed.insert p.sequence.entryKey
            (.ofSequence (p.sequence.definitionAt r.margin)) ∧
          catalog.entry? p.sequence.entryKey =
            some (.ofSequence (p.sequence.definitionAt r.margin))) ∨
        ∃ err, (flushMargin r).runOn p =
            (.error err, ⟨{ p.sequence with persistedMargin := r.margin }, catalog⟩) ∧
          catalog.store.committed = p.catalog.store.committed) := by
  have hmark := Sequence.markFlushed_of_shouldFlush hnews r.margin
  rw [flushMargin, inBatch, runOn_mk, runOn_bind,
    Sequence.runOn_stage_persistent hnews htemporary]
  -- The write into the batch may be refused, and its commit may fail.
  rcases CatalogBatch.write_cases ⟨p.catalog, false⟩
    (.ofSequence (p.sequence.definitionAt r.margin)) with hwrite | ⟨err, hwrite⟩
  · obtain ⟨catalog, hidle', ⟨hcommit, hcommitted⟩ | ⟨err, hcommit, hcommitted⟩⟩ :=
      CatalogBatch.commit_staging_cases hidle false
        (.write (.ofSequence (p.sequence.definitionAt r.margin)))
    · refine ⟨catalog, hidle', .inl ⟨?_, hcommitted, ?_⟩⟩
      · simp [runOn_bind, hwrite, Except.map, hcommit, hmark, Sequence.flushed, CatalogBatch.drop]
      · -- What is committed is what readers of the catalog see.
        rw [hidle'.entry?_eq, hcommitted]
        exact Table.get?_insert_self _ _ _
    · refine ⟨catalog, hidle', .inr ⟨err, ?_, hcommitted⟩⟩
      simp [runOn_bind, hwrite, Except.map, hcommit, CatalogBatch.drop]
  · -- Nothing was staged, so that there is nothing to discard.
    refine ⟨p.catalog, hidle, .inr ⟨err, ?_, rfl⟩⟩
    simp [hwrite, Except.map, CatalogBatch.drop]

/-! ## What the calls keep -/

/-- What starts at the margin committed last comes after the words before that margin. -/
def Sequence.HasEntry (step : Int64) (s : Sequence) (catalog : Catalog) (last : Int) : Prop :=
  ∃ d : SequenceDefinition, catalog.entry? s.entryKey = some (.ofSequence d) ∧
    d.cycle = false ∧ d.increment = step ∧
    ∀ v : Int64, along step v.toInt < along step last → along step v.toInt < along step d.nextValue

/-- The numbers handed out lie between the first one and the cursor, and those that are not exposed
before the margin in the catalog. -/
structure IsBacked (step : Int64) (first : Int) (w : MarginWatch) : Prop where
  sound : w.stored.sequence.IsSound step
  idle : w.stored.catalog.IsIdle
  generation : w.stored.sequence.flushedGeneration = w.stored.sequence.generation
  stored : ∀ {last}, w.stored.sequence.flushedMargin = some last →
    w.stored.sequence.HasEntry step w.stored.catalog last
  aligned : ∃ k : Nat,
    w.stored.sequence.margin = w.stored.sequence.value + step.toInt * k
  /-- Nothing is reserved, or the catalog has the end of what is, or the margin was lost. -/
  reserved : w.lost = false → w.stored.sequence.margin = w.stored.sequence.value ∨
    ∃ last, w.stored.sequence.flushedMargin = some last ∧
      along step w.stored.sequence.margin ≤ along step last
  begun : along step first ≤ along step w.stored.sequence.value
  passed : ∀ v ∈ w.handed, along step first ≤ along step v.toInt ∧
    along step v.toInt < along step w.stored.sequence.value ∧
    (v ∈ w.exposed ∨ ∃ last, w.stored.sequence.flushedMargin = some last ∧
      along step v.toInt < along step last)
  unexposed : w.lost = false → w.exposed = []

namespace IsBacked

variable {step : Int64} {first : Int} {w : MarginWatch} {v : Int64}

/-- A sequence whose reserved numbers all lie before a stored margin has nothing exposed. -/
theorem of_stored {s : Sequence} {catalog : Catalog} {handed : List Int64} {last : Int}
    (hsound : s.IsSound step) (hidle : catalog.IsIdle)
    (hgeneration : s.flushedGeneration = s.generation) (hlast : s.flushedMargin = some last)
    (hentry : s.HasEntry step catalog last)
    (haligned : ∃ k : Nat, s.margin = s.value + step.toInt * k)
    (hend : along step s.margin ≤ along step last)
    (hbegun : along step first ≤ along step s.value)
    (hbetween : ∀ v ∈ handed,
      along step first ≤ along step v.toInt ∧ along step v.toInt < along step s.value) :
    IsBacked step first ⟨⟨s, catalog⟩, false, handed, []⟩ := by
  obtain ⟨k, hk⟩ := haligned
  -- Every number below the cursor lies below the margin that is stored.
  have hahead := hsound.along_value_le hk
  exact
    { sound := hsound
      idle := hidle
      generation := hgeneration
      stored := fun hlast' => Option.some.inj (hlast.symm.trans hlast') ▸ hentry
      aligned := ⟨k, hk⟩
      reserved := fun _ => .inr ⟨last, hlast, hend⟩
      begun := hbegun
      passed := fun v hv => by
        obtain ⟨hfirst, hv'⟩ := hbetween v hv
        exact ⟨hfirst, hv', .inr ⟨last, hlast, by omega⟩⟩
      unexposed := fun _ => rfl }

theorem begun_drawn (h : IsBacked step first w) (margin : Int) :
    along step first ≤ along step (w.stored.sequence.drawn margin).value := by
  have hpos := along_step_pos h.sound.moves
  have hcursor := h.sound.along_drawn margin
  have hbegun := h.begun
  omega

/-- The numbers handed out, with the number handed out next, lie before the cursor after it. -/
theorem between_drawn (h : IsBacked step first w) (hv : v.toInt = w.stored.sequence.value)
    (margin : Int) :
    ∀ u ∈ w.handed ++ [v], along step first ≤ along step u.toInt ∧
      along step u.toInt < along step (w.stored.sequence.drawn margin).value := by
  have hpos := along_step_pos h.sound.moves
  have hcursor := h.sound.along_drawn margin
  have hbegun := h.begun
  intro u hu
  -- An older number lies before the cursor already, and the new one is the cursor.
  rcases List.mem_append.mp hu with hold | hnew
  · obtain ⟨hfirst, hbefore, -⟩ := h.passed u hold
    omega
  · rw [List.mem_singleton.mp hnew, hv]
    omega

theorem withFaults (h : IsBacked step first w) (faults : CatalogFaults) :
    IsBacked step first (w.withFaults faults) :=
  { h with idle := h.idle.withFaults faults }

/-- A number that was reserved is handed out. If the margin was lost, it is exposed. -/
theorem drawn (h : IsBacked step first w) (hv : v.toInt = w.stored.sequence.value) {k : Nat}
    (hk : w.stored.sequence.margin = w.stored.sequence.value + step.toInt * (k + 1 : Nat)) :
    IsBacked step first
      ⟨⟨w.stored.sequence.drawn w.stored.sequence.margin, w.stored.catalog⟩, w.lost,
        w.handed ++ [v], if w.lost then w.exposed ++ [v] else []⟩ := by
  -- Whether a margin was lost decides whether the number is exposed.
  obtain ⟨⟨s, catalog⟩, lost, handed, exposed⟩ := w
  have haligned := h.sound.aligned_drawn hk
  have hbegun := h.begun_drawn s.margin
  have hbetween := h.between_drawn hv s.margin
  cases lost with
  | false =>
    -- Something is reserved, so that the catalog has the end of it.
    have hne : s.margin ≠ s.value := by
      intro hsame
      have hlt := h.sound.lt_of_aligned haligned
      rw [hsame] at hlt
      exact Int.lt_irrefl _ hlt
    obtain ⟨last, hlast, hend⟩ := (h.reserved rfl).resolve_left hne
    exact of_stored (h.sound.drawn _) h.idle h.generation hlast (h.stored hlast) ⟨k, haligned⟩ hend
      hbegun hbetween
  -- After a lost margin the number is exposed, as no margin in the catalog covers it.
  | true =>
    refine
      { sound := h.sound.drawn _
        idle := h.idle
        generation := h.generation
        stored := h.stored
        aligned := ⟨k, haligned⟩
        reserved := fun hkept => by cases hkept
        begun := hbegun
        passed := fun u hu => ⟨(hbetween u hu).1, (hbetween u hu).2, ?_⟩
        unexposed := fun hkept => by cases hkept }
    -- Earlier numbers keep their side, and the new one joins the exposed ones.
    rcases List.mem_append.mp hu with hold | hnew
    · exact (h.passed u hold).2.2.imp_left fun hu => List.mem_append_left _ hu
    · exact .inl (List.mem_append_right _ hnew)

/-- The margin is moved on, and it is stored or lies before one that is, or it is lost. -/
theorem moved (h : IsBacked step first w) (hv : v.toInt = w.stored.sequence.value) {margin : Int}
    (hmargin : margin = w.stored.sequence.value +
      step.toInt * w.stored.sequence.cacheSize.toInt) :
    ∃ p, ((StoredSequence.flushMargin ⟨margin, w.stored.sequence.generation⟩).runOn
          ⟨w.stored.sequence.drawn margin, w.stored.catalog⟩ = (.ok (), p) ∧
        IsBacked step first ⟨p, false, w.handed ++ [v], []⟩) ∨
      ∃ err, (StoredSequence.flushMargin ⟨margin, w.stored.sequence.generation⟩).runOn
          ⟨w.stored.sequence.drawn margin, w.stored.catalog⟩ = (.error err, p) ∧
        IsBacked step first { w with stored := p, lost := true } := by
  obtain ⟨⟨s, catalog⟩, lost, handed, exposed⟩ := w
  have haligned := h.sound.aligned_reserved hmargin
  have hbegun := h.begun_drawn margin
  have hbetween := h.between_drawn hv margin
  have hsound := h.sound.drawn margin
  -- A margin is stored unless the catalog holds one that lies as far on.
  cases hnews : (s.drawn margin).shouldFlush ⟨margin, s.generation⟩ with
  | false =>
    -- The catalog has a margin that lies at least as far on.
    have hnothing := StoredSequence.runOn_flushMargin_of_not_shouldFlush
      (p := ⟨s.drawn margin, catalog⟩) hnews
    obtain ⟨last, hlast, hend⟩ :=
      (s.drawn margin).exists_further_of_not_shouldFlush h.generation.symm hnews
    rw [hsound.increment] at hend
    exact ⟨_, .inl ⟨hnothing, of_stored hsound h.idle h.generation hlast (h.stored hlast) haligned
      hend hbegun hbetween⟩⟩
  | true =>
    obtain ⟨catalog', hidle, ⟨hflush, -, hentry⟩ | ⟨err, hflush, hcommitted⟩⟩ :=
      StoredSequence.flushMargin_cases (p := ⟨s.drawn margin, catalog⟩) h.idle hsound.persistent
        hnews
    · -- The commit went through, and the entry starts at the new margin.
      obtain ⟨hpersistent, hbounded, hincrement, hmoves, hcache, hnear⟩ := hsound
      refine ⟨_, .inl ⟨hflush, of_stored
        ⟨hpersistent, hbounded, hincrement, hmoves, hcache, hnear⟩ hidle rfl rfl
        ⟨_, hentry, hbounded, hincrement, fun v hv => ?_⟩ haligned (Int.le_refl _) hbegun hbetween⟩⟩
      rw [← hincrement] at hv ⊢
      exact (Sequence.along_lt_nextValue_iff (by rw [hincrement]; exact hmoves) v _).mpr hv
    · -- The commit failed: the sequence has moved on, and the entry has not.
      obtain ⟨hpersistent, hbounded, hincrement, hmoves, hcache, hnear⟩ := hsound
      refine ⟨_, .inr ⟨err, hflush,
        { sound := ⟨hpersistent, hbounded, hincrement, hmoves, hcache, hnear⟩
          idle := hidle
          generation := h.generation
          stored := fun hlast => ?_
          aligned := haligned
          reserved := fun hkept => by cases hkept
          begun := hbegun
          passed := fun u hu =>
            ⟨(h.passed u hu).1, (hbetween u (List.mem_append_left _ hu)).2, (h.passed u hu).2.2⟩
          unexposed := fun hkept => by cases hkept }⟩⟩
      -- The entry is the one that was there before.
      obtain ⟨d, hentry, hd⟩ := h.stored hlast
      refine ⟨d, ?_, hd⟩
      rw [hidle.entry?_eq, hcommitted, ← h.idle.entry?_eq]
      exact hentry

/-- Asking for a number keeps what is not exposed before the margin in the catalog. -/
theorem ask (h : IsBacked step first w) : IsBacked step first w.ask := by
  obtain ⟨k, hk⟩ := h.aligned
  have hused := Sequence.isUsedUp_eq h.sound.increment h.sound.moves hk
  rw [MarginWatch.ask]
  rcases h.sound.next_cases hk with ⟨hpast, err, hrun⟩ | ⟨hpast, v, hv, hrun⟩
  · -- An exhausted sequence stays as it is.
    have hreserves : w.stored.sequence.reserves = false := by simp [Sequence.reserves, hpast]
    simp only [hrun, hreserves, Bool.or_false]
    exact h
  cases k with
  -- Nothing is reserved, and a new block is asked for.
  | zero =>
    obtain ⟨margin, flushed, hmargin, hflush, hrun⟩ := hrun
    have hreserves : w.stored.sequence.reserves = true := by
      simp [Sequence.reserves, hpast, hused]
    obtain ⟨p, ⟨hflush', hkept⟩ | ⟨err, hflush', hkept⟩⟩ := h.moved hv hmargin
    · obtain rfl : flushed = (.ok (), p) := hflush.symm.trans hflush'
      simpa [hrun, hreserves, Except.map] using hkept
    · obtain rfl : flushed = (.error err, p) := hflush.symm.trans hflush'
      simpa [hrun, hreserves, Except.map] using hkept
  -- A reserved number is handed out from memory.
  | succ k =>
    have hreserves : w.stored.sequence.reserves = false := by
      simp [Sequence.reserves, hused]
    have hrun : StoredSequence.next.runOn w.stored = _ := hrun
    simpa [hrun, hreserves] using h.drawn hv hk

theorem call (h : IsBacked step first w) (faults : CatalogFaults) :
    IsBacked step first (w.call faults) :=
  (h.withFaults faults).ask

/-- What each call keeps holds at the end of a run. -/
theorem run (h : IsBacked step first w) (faults : List CatalogFaults) :
    IsBacked step first (w.run faults) := by
  induction faults generalizing w with
  | nil => exact h
  | cons f rest ih => exact ih (h.call f)

end IsBacked

/-! ## Where a run begins -/

/-- A sequence that is kept in the catalog and does not start over: one that was just made, one that
was taken up from its entry, or one in the midst of its life. -/
inductive StoredSequence.IsInUse : StoredSequence → Prop where
  | created {id : ObjectId} {name : String} {options : SequenceOptions} {defaultCache : Int64}
      {s : Sequence} {catalog : Catalog} (htemporary : options.temporary = false)
      (hcycle : options.cycle = false) (hidle : catalog.IsIdle)
      (hcreate : Sequence.create id name options defaultCache = .ok s) : IsInUse ⟨s, catalog⟩
  | recovered {d : SequenceDefinition} {s : Sequence} {catalog : Catalog}
      (hcycle : d.cycle = false) (hidle : catalog.IsIdle)
      (hentry : catalog.entry? ⟨.sequence, d.name⟩ = some (.ofSequence d))
      (hrecover : Sequence.recover d = .ok s) : IsInUse ⟨s, catalog⟩
  | living {schema schema' : Schema} {name : String} {options : SequenceOptions} {s : Sequence}
      (htemporary : options.temporary = false) (hcycle : options.cycle = false)
      (hready : schema.catalog.IsReady)
      (hcreate : (Schema.createSequence name options).runOn schema = (.ok s, schema'))
      (events : List SequenceEvent) :
      IsInUse ((SequenceLife.start ⟨s, schema'.catalog⟩).run events).stored

/-- The sequence of a definition goes on in steps to its last bound. -/
theorem Sequence.isSound_ofDefinition {d : SequenceDefinition} (hcycle : d.cycle = false)
    (hmoves : d.increment.toInt ≠ 0) : (ofDefinition d).IsSound d.increment :=
  ⟨rfl, hcycle, rfl, hmoves, one_le_toInt_max _, d.start,
    SequenceDefinition.along_start_le_nextValue hmoves⟩

/-- A sequence has handed out nothing yet when it is watched for the first time. -/
theorem StoredSequence.IsInUse.isBacked {p : StoredSequence} (h : p.IsInUse) :
    IsBacked p.sequence.increment p.sequence.value (MarginWatch.start p) := by
  -- A sequence is in use since it was created, since it was taken up, or after any life so far.
  cases h with
  | @created id name options defaultCache s catalog htemporary hcycle hidle hcreate =>
    obtain ⟨d, hdefinition, rfl⟩ := Sequence.eq_of_create hcreate htemporary
    obtain ⟨hvalid, -, hbounded⟩ := SequenceOptions.valid_of_definition hdefinition
    obtain ⟨-, -, -, hmoves, -⟩ := hvalid
    exact
      { sound := Sequence.isSound_ofDefinition (hbounded.trans hcycle) hmoves
        idle := hidle
        generation := rfl
        stored := fun hlast => by cases hlast
        aligned := ⟨0, by simp [MarginWatch.start, Sequence.ofDefinition]⟩
        reserved := fun _ => .inl rfl
        begun := Int.le_refl _
        passed := fun v hv => by cases hv
        unexposed := fun _ => rfl }
  -- What is taken up starts at the margin that its entry has.
  | @recovered d s catalog hcycle hidle hentry hrecover =>
    obtain ⟨hrecoverable, rfl⟩ := Sequence.eq_of_recover hrecover
    have hmoves := ((Sequence.recoverable_iff d).mp hrecoverable).1
    obtain ⟨hpersistent, hbounded, hincrement, hmoves, hcache, hnear⟩ :=
      Sequence.isSound_ofDefinition hcycle hmoves
    exact IsBacked.of_stored ⟨hpersistent, hbounded, hincrement, hmoves, hcache, hnear⟩ hidle rfl
      rfl ⟨d, hentry, hcycle, rfl, fun _ hv => hv⟩ ⟨0, by simp [Sequence.ofDefinition]⟩
      (Int.le_refl _) (Int.le_refl _) fun v hv => by cases hv
  -- The invariant of an undisturbed life gives the weaker one of a life with faults.
  | @living schema schema' name options s htemporary hcycle hready hcreate events =>
    obtain ⟨hsafe, -⟩ := Schema.isSafe_of_createSequence hready htemporary hcycle hcreate
    obtain ⟨m, hend, -⟩ := SequenceLife.run_keeps
      (l := SequenceLife.start ⟨s, schema'.catalog⟩) hsafe events
    generalize ((SequenceLife.start ⟨s, schema'.catalog⟩).run events) = l at hend
    have hincrement := hend.sound.increment
    have hmoves := hend.sound.moves
    rw [← hincrement] at hend hmoves
    exact
      { sound := hend.sound
        idle := hend.ready.idle
        generation := hend.generation
        stored := fun hlast => by
          obtain rfl := hend.flushed hlast
          exact ⟨_, hend.stored, hend.sound.bounded, rfl, fun v hv =>
            (Sequence.along_lt_nextValue_iff hmoves v _).mpr hv⟩
        aligned := hend.aligned
        reserved := fun _ => by
          cases hlast : l.stored.sequence.flushedMargin with
          | none => exact .inl (hend.fresh hlast).1
          | some last =>
            obtain rfl := hend.flushed hlast
            exact hend.reserved.imp_right fun hle => ⟨_, hlast, hle⟩
        begun := Int.le_refl _
        passed := fun v hv => by cases hv
        unexposed := fun _ => rfl }

/-! ## Main result -/

/-- What is taken up from the entry of a sequence hands out nothing that lies before the entry. -/
theorem IsBacked.notMem_handed {step : Int64} {catalog : Catalog} {key : ObjectKey}
    {d : SequenceDefinition} {q : Sequence} {v : Int64} (hidle : catalog.IsIdle)
    (hentry : catalog.entry? key = some (.ofSequence d)) (hcycle : d.cycle = false)
    (hincrement : d.increment = step) (hbefore : along step v.toInt < along step d.nextValue)
    (hrecover : Sequence.recover d = .ok q) (later : List CatalogFaults) :
    v ∉ ((MarginWatch.start ⟨q, catalog⟩).run later).handed := by
  -- The entry is found by its own key.
  obtain rfl : (CatalogEntry.ofSequence d).key = key := by
    simpa using List.find?_some hentry
  have hbacked := (StoredSequence.IsInUse.recovered hcycle hidle hentry hrecover).isBacked
  obtain ⟨-, rfl⟩ := Sequence.eq_of_recover hrecover
  intro hv
  obtain ⟨hfirst, -⟩ := (hbacked.run later).passed v hv
  rw [← hincrement] at hbefore
  exact absurd hfirst (Int.not_le_of_gt hbefore)

/-- Whichever calls of the catalog fail while numbers are asked for, a number that was handed out
lies before the margin in the catalog, and what is rebuilt from there never hands it out again,
unless its own margin was lost and none was stored since. -/
theorem StoredSequence.never_again_unless_exposed {p : StoredSequence} (h : p.IsInUse)
    (faults : List CatalogFaults) {w : MarginWatch}
    (hw : (MarginWatch.start p).run faults = w) :
    (w.lost = false → w.exposed = []) ∧
      ∀ v ∈ w.handed, v ∉ w.exposed → ∃ d : SequenceDefinition,
        w.stored.catalog.entry? w.stored.sequence.entryKey = some (.ofSequence d) ∧
          along p.sequence.increment v.toInt < along p.sequence.increment d.nextValue ∧
          ∀ q, Sequence.recover d = .ok q → ∀ later,
            v ∉ ((MarginWatch.start ⟨q, w.stored.catalog⟩).run later).handed := by
  have hbacked := h.isBacked.run faults
  rw [hw] at hbacked
  -- An unexposed number lies before a margin that the catalog holds.
  refine ⟨hbacked.unexposed, fun v hv hkept => ?_⟩
  obtain ⟨-, -, hmargin⟩ := hbacked.passed v hv
  obtain ⟨last, hlast, hlt⟩ := hmargin.resolve_left hkept
  obtain ⟨d, hentry, hcycle, hincrement, hstarts⟩ := hbacked.stored hlast
  have hbefore := hstarts v hlt
  exact ⟨d, hentry, hbefore, fun q hrecover later =>
    IsBacked.notMem_handed hbacked.idle hentry hcycle hincrement hbefore hrecover later⟩

/-- The catalog fails at the first margin. The number handed out after it is exposed, until the next
margin is stored: then only the number of the failed call is lost. -/
theorem StoredSequence.never_again_unless_exposed_of_one_fault :
    let d : SequenceDefinition :=
      ⟨⟨1⟩, "rows", 1, 1, 1, Int64.maxValue, 2, false, false, false⟩
    let catalog := ((Catalog.persist (.ofSequence d)).runOn .inMemory).2
    let works : CatalogFaults := ⟨false, false, false⟩
    let fails : CatalogFaults := ⟨false, false, true⟩
    ∃ s, Sequence.recover d = .ok s ∧ IsInUse ⟨s, catalog⟩ ∧
      ∃ w, (MarginWatch.start ⟨s, catalog⟩).run [fails, works, works] = w ∧ w.handed = [2, 3] ∧
        w.exposed = [] ∧ ∃ d', w.stored.catalog.entry? w.stored.sequence.entryKey =
            some (.ofSequence d') ∧
          ∀ q, Sequence.recover d' = .ok q → ∀ later,
            2 ∉ ((MarginWatch.start ⟨q, w.stored.catalog⟩).run later).handed := by
  intro d catalog works fails
  -- The catalog holds the definition that is then taken up.
  obtain ⟨c, hpersist, hready, -⟩ := Catalog.isReady_inMemory.persist (.ofSequence d)
  have hidle : catalog.IsIdle := by
    show ((Catalog.persist (.ofSequence d)).runOn .inMemory).2.IsIdle
    rw [hpersist]
    exact hready.idle
  let s : Sequence := { Sequence.ofDefinition d with flushedMargin := some d.nextValue }
  have hrecover : Sequence.recover d = .ok s := if_pos (by decide +kernel)
  have hentry : catalog.entry? ⟨.sequence, d.name⟩ = some (.ofSequence d) := by decide +kernel
  have hinUse : IsInUse ⟨s, catalog⟩ := .recovered rfl hidle hentry hrecover
  -- Two numbers are given in spite of the failure of the first commit.
  have hend : ((MarginWatch.start ⟨s, catalog⟩).run [fails, works, works]).handed = [2, 3] ∧
      ((MarginWatch.start ⟨s, catalog⟩).run [fails, works, works]).exposed = [] := by
    decide +kernel
  refine ⟨s, hrecover, hinUse, _, rfl, hend.1, hend.2, ?_⟩
  obtain ⟨-, hkept⟩ := never_again_unless_exposed hinUse [fails, works, works] rfl
  obtain ⟨d', hentry, -, hnever⟩ := hkept 2 (by simp [hend.1]) (by simp [hend.2])
  exact ⟨d', hentry, hnever⟩

/-- The number after a lost margin is handed out although the catalog is not past it, and what is
rebuilt from the catalog hands it out again. -/
theorem StoredSequence.handed_again_after_lost_margin :
    let d : SequenceDefinition :=
      ⟨⟨1⟩, "rows", 1, 1, 1, Int64.maxValue, 3, false, false, false⟩
    let catalog := ((Catalog.persist (.ofSequence d)).runOn .inMemory).2
    let works : CatalogFaults := ⟨false, false, false⟩
    let fails : CatalogFaults := ⟨false, false, true⟩
    ∃ s, Sequence.recover d = .ok s ∧
      ∃ w, (MarginWatch.start ⟨s, catalog⟩).run [fails, works] = w ∧ w.handed = [2] ∧
        w.stored.catalog.entry? w.stored.sequence.entryKey = some (.ofSequence d) ∧
        ((MarginWatch.start ⟨s, w.stored.catalog⟩).run [works, works]).handed = [1, 2] := by
  intro d catalog works fails
  let s : Sequence := { Sequence.ofDefinition d with flushedMargin := some d.nextValue }
  have hrecover : Sequence.recover d = .ok s := if_pos (by decide +kernel)
  refine ⟨s, hrecover, _, rfl, ?_⟩
  decide +kernel

end TxnStore
