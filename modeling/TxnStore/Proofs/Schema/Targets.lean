import TxnStore.Proofs.Sequences.Steps
import TxnStore.Proofs.Schema.Reopening

/-!
# Margins that the caller names

A caller may name any margin to be stored. One that is no further on than the margin stored before
is left out. But of a sequence that was only just created no margin counts as stored, though its
entry is there, and so its first margin may lie before the first bound, where nothing can be taken
up. As long as that margin is the last one, no schema can be opened on the catalog. All other uses
of a sequence keep its entry one that can be taken up.
-/

namespace TxnStore

open TxnStore.Action

namespace Sequence

variable {s t : Sequence}

/-- The margin stored last lies before the first bound. -/
def IsAstray (s : Sequence) : Prop :=
  ∃ last, s.flushedMargin = some last ∧ along s.increment last < along s.increment s.firstBound

/-- A margin that is named can be taken up if and only if it does not lie before the first bound. -/
theorem IsRegular.recoverable_definitionAt_iff (h : s.IsRegular) (target : Int64) :
    Recoverable (s.definitionAt target.toInt) ↔
      along s.increment s.firstBound ≤ along s.increment target.toInt := by
  refine ⟨fun hrecoverable => ?_, h.recoverable_definitionAt⟩
  obtain ⟨-, -, hstart⟩ := (recoverable_iff _).mp hrecoverable
  have hword := word_bounds target
  have hsame : (s.definitionAt target.toInt).start.toInt = target.toInt :=
    toInt_saturate_of_word hword.1 hword.2
  rw [hsame] at hstart
  exact hstart

end Sequence

/-- A sequence after steps that started from one that was only just created. -/
structure StoredSequence.IsTended (s : Sequence) (steps : List SequenceStep) (c : Catalog)
    (p : StoredSequence) : Prop where
  others : c.SameBut s.entryKey p.catalog
  name : p.sequence.name = s.name
  persistent : p.sequence.temporary = false
  regular : p.sequence.IsRegular
  generation : p.sequence.flushedGeneration = p.sequence.generation
  begun : along p.sequence.increment p.sequence.firstBound ≤
    along p.sequence.increment p.sequence.margin
  /-- As long as nothing is stored that can be taken up, nothing has changed but that. -/
  fresh : p.sequence.flushedMargin = none ∨ p.sequence.IsAstray → s.Notes p.sequence
  named : ∀ {last}, p.sequence.flushedMargin = some last →
    along p.sequence.increment last < along p.sequence.increment p.sequence.firstBound →
    ∃ target, SequenceStep.flush target ∈ steps ∧ last = target.toInt
  stored : ∃ d, p.catalog.entry? s.entryKey = some (.ofSequence d) ∧
    (Sequence.Recoverable d ↔ ¬p.sequence.IsAstray)

theorem Catalog.SameBut.trans {key : ObjectKey} {c c' c'' : Catalog} (h : c.SameBut key c')
    (h' : c'.SameBut key c'') : c.SameBut key c'' :=
  ⟨h'.ready, fun hsorted => h'.sorted (h.sorted hsorted),
    fun k hk => (h'.others k hk).trans (h.others k hk)⟩

namespace StoredSequence.IsTended

variable {s t : Sequence} {steps : List SequenceStep} {c : Catalog} {p : StoredSequence}

/-- A margin of the current generation that is news is stored. -/
theorem of_news {catalog : Catalog} {r : Reservation} (hothers : c.SameBut s.entryKey catalog)
    (hname : t.name = s.name) (hpersistent : t.temporary = false) (hregular : t.IsRegular)
    (hbegun : along t.increment t.firstBound ≤ along t.increment t.margin)
    (hgeneration : r.generation = t.generation) (hnews : t.shouldFlush r = true)
    (hmargin : along t.increment t.firstBound ≤ along t.increment r.margin ∨
      s.Notes t ∧ ∃ target, SequenceStep.flush target ∈ steps ∧ r.margin = target.toInt) :
    IsTended s steps c (storing ⟨t, catalog⟩ (some r)) := by
  obtain ⟨catalog', hready, hcommitted, hrun⟩ :=
    runOn_flushMargin_ready (p := ⟨t, catalog⟩) hothers.ready r
  have hkey : t.entryKey = s.entryKey := congrArg (ObjectKey.mk .sequence) hname
  -- News of a lasting sequence is committed as its definition at the new margin.
  simp only [tableAfter, Sequence.settled, hnews, hpersistent, Bool.not_false, Bool.and_self,
    if_true, hkey] at hcommitted hrun
  have hstored : catalog'.entry? s.entryKey = some (.ofSequence (t.definitionAt r.margin)) := by
    rw [hready.entry?_eq, hcommitted]
    exact Table.get?_insert_self _ _ _
  -- The margin stored last decides whether the sequence is astray.
  have hastray : (t.flushed r).IsAstray ↔
      along t.increment r.margin < along t.increment t.firstBound := by
    refine ⟨?_, fun hlt => ⟨r.margin, rfl, hlt⟩⟩
    rintro ⟨last, hlast, hlt⟩
    obtain rfl := Option.some.inj hlast
    exact hlt
  rw [storing, hrun]
  exact
    { others := hothers.trans (.of_committed hready hcommitted)
      name := hname
      persistent := hpersistent
      regular := ⟨hregular.moves, hregular.step, hregular.cache, hregular.begun⟩
      generation := hgeneration
      begun := hbegun
      fresh := by
        -- A margin was stored just now, and it lies astray only if it was named at the start.
        rintro (hnone | hbefore)
        · cases hnone
        · rcases hmargin with hmargin | ⟨hnotes, -⟩
          · have hlt := hastray.mp hbefore
            omega
          · exact hnotes.trans ⟨_, _, _, rfl⟩
      named := by
        intro last hlast hlt
        obtain rfl := Option.some.inj hlast
        rcases hmargin with hmargin | ⟨-, hnamed⟩
        · exact absurd hlt (Int.not_lt.mpr hmargin)
        · exact hnamed
      stored := by
        -- The definition can be recovered exactly if its start is not before the first bound.
        refine ⟨_, hstored, ?_⟩
        rw [hastray, Int.not_lt]
        rcases hmargin with hmargin | ⟨-, target, -, htarget⟩
        · exact iff_of_true (hregular.recoverable_definitionAt hmargin) hmargin
        · rw [htarget]
          exact hregular.recoverable_definitionAt_iff target }

/-- Where a margin is stored that can be taken up, drawing need not store another one. -/
theorem of_drawn (h : IsTended s steps c p) {m : Int}
    (hm : along p.sequence.increment p.sequence.margin ≤ along p.sequence.increment m)
    (hsome : p.sequence.flushedMargin ≠ none) (hastray : ¬p.sequence.IsAstray) :
    IsTended s steps c ⟨p.sequence.drawn m, p.catalog⟩ :=
  { others := h.others
    name := h.name
    persistent := h.persistent
    regular := h.regular.drawn m
    generation := h.generation
    begun := Int.le_trans h.begun hm
    fresh := by
      rintro (hnone | hbefore)
      · exact absurd hnone hsome
      · exact absurd hbefore hastray
    named := h.named
    stored := h.stored }

/-- Drawing a number stores a margin that can be taken up, or there is one. -/
theorem next (h : IsTended s steps c p) (hreserved : s.margin = s.value) :
    IsTended s steps c (storing ⟨(SequenceCall.next.moves p.sequence).1, p.catalog⟩
      (SequenceCall.next.moves p.sequence).2) := by
  have hregular := h.regular
  have hbegun := h.begun
  -- An exhausted sequence, one that starts over, and one that goes on.
  rcases p.sequence.draw_cases with ⟨-, -, hdraw⟩ | ⟨-, -, hdraw⟩ | ⟨-, hdraw⟩
  · rw [SequenceCall.moves, hdraw]
    exact h
  · rw [SequenceCall.moves, hdraw]
    have hahead := hregular.lt_reserveFrom p.sequence.firstBound
    -- Starting over is news, as its generation is new.
    have hnews : p.sequence.wrapped.shouldFlush
        ⟨p.sequence.reserveFrom p.sequence.firstBound, p.sequence.generation + 1⟩ = true :=
      Sequence.shouldFlush_of_lt (Nat.lt_succ_of_le (Nat.le_of_eq h.generation))
    exact of_news h.others h.name h.persistent hregular.wrapped (Int.le_of_lt hahead) rfl hnews
      (.inl (Int.le_of_lt hahead))
  · rw [SequenceCall.moves, hdraw]
    dsimp only
    cases hused : p.sequence.isUsedUp with
    -- A new block is reserved from the margin on, which lies beyond the first bound.
    | true =>
      have hahead := hregular.lt_reserveFrom p.sequence.margin
      let r : Reservation := ⟨p.sequence.reserveFrom p.sequence.margin, p.sequence.generation⟩
      have hmargin : along p.sequence.increment p.sequence.firstBound ≤
          along p.sequence.increment r.margin := Int.le_trans hbegun (Int.le_of_lt hahead)
      rw [Sequence.reservationAfter, Sequence.marginAfter, hused, if_pos rfl, if_pos rfl]
      cases hnews : (p.sequence.drawn r.margin).shouldFlush r with
      | true =>
        exact of_news h.others h.name h.persistent (hregular.drawn _) hmargin rfl hnews
          (.inl hmargin)
      | false =>
        -- The margin stored lies further on than the one that is reserved now.
        obtain ⟨last, hlast, hfurther⟩ :=
          Sequence.exists_further_of_not_shouldFlush _ h.generation.symm hnews
        show IsTended s steps c (storing ⟨p.sequence.drawn r.margin, p.catalog⟩ (some r))
        rw [storing_of_not_shouldFlush hnews]
        refine h.of_drawn (Int.le_of_lt hahead) (fun hnone => ?_) ?_
        · cases hnone.symm.trans hlast
        · rintro ⟨last', hlast', hlt⟩
          obtain rfl := Option.some.inj (hlast'.symm.trans hlast)
          exact absurd (Int.le_trans hmargin hfurther) (Int.not_le.mpr hlt)
    | false =>
      -- At first nothing is reserved, and so something was stored since.
      have hstale : ¬(p.sequence.flushedMargin = none ∨ p.sequence.IsAstray) := by
        intro hfresh
        obtain ⟨_, _, _, hsame⟩ := h.fresh hfresh
        have hmargin : p.sequence.margin = p.sequence.value := by
          rw [hsame]
          exact hreserved
        rw [← Bool.not_eq_true, Sequence.isUsedUp_iff, hmargin] at hused
        exact hused (Int.le_refl _)
      rw [Sequence.reservationAfter, Sequence.marginAfter, hused, if_neg Bool.false_ne_true,
        if_neg Bool.false_ne_true]
      exact h.of_drawn (Int.le_refl _) (fun hnone => hstale (.inl hnone))
        fun hastray => hstale (.inr hastray)

/-- Changed attributes are stored with a margin that can be taken up under them. -/
theorem renewed (h : IsTended s steps c p) {u : Sequence} (halters : p.sequence.Alters u) :
    IsTended s steps c
      (storing ⟨(p.sequence.renewed u).1, p.catalog⟩ (p.sequence.renewed u).2) := by
  -- An alteration keeps the margin or moves it to the cursor, and it starts a generation.
  obtain ⟨hsame, hregular, hreserved⟩ := halters
  have hu := hregular h.regular
  have hbegun : along u.increment u.firstBound ≤ along u.increment u.margin := by
    rcases hreserved with hreserved | hreserved
    · rw [hreserved]
      exact hu.begun
    · rw [hreserved]
      exact h.begun
  have hnews : (p.sequence.renewed u).1.shouldFlush
      ⟨u.margin, p.sequence.generation + 1⟩ = true := by
    refine Sequence.shouldFlush_of_lt ?_
    show u.flushedGeneration < p.sequence.generation + 1
    rw [hsame]
    exact Nat.lt_succ_of_le (Nat.le_of_eq h.generation)
  refine of_news h.others ?_ ?_ ⟨hu.moves, hu.step, hu.cache, hu.begun⟩ hbegun rfl hnews
    (.inl hbegun)
  · show u.name = s.name
    rw [hsame]
    exact h.name
  · show u.temporary = false
    rw [hsame]
    exact h.persistent

/-- A margin that the caller names goes astray only where none was stored before that did not. -/
theorem flush (h : IsTended s steps c p) {target : Int64}
    (htarget : SequenceStep.flush target ∈ steps) :
    IsTended s steps c (storing p (some (p.sequence.reservationAt target.toInt))) := by
  -- A flush is the only step that may store a margin before the first bound.
  cases hnews : p.sequence.shouldFlush (p.sequence.reservationAt target.toInt) with
  | false =>
    rw [storing_of_not_shouldFlush hnews p.catalog]
    exact h
  | true =>
    refine of_news h.others h.name h.persistent h.regular h.begun rfl hnews ?_
    by_cases hbefore : along p.sequence.increment p.sequence.firstBound ≤
        along p.sequence.increment target.toInt
    · exact .inl hbefore
    refine .inr ⟨h.fresh ?_, target, htarget, rfl⟩
    -- A margin before the first bound is news only behind none or one that lies there too.
    cases hlast : p.sequence.flushedMargin with
    | none => exact .inl rfl
    | some last =>
      have hlt := (Sequence.shouldFlush_iff h.generation.symm).mp hnews last hlast
      exact .inr ⟨last, hlast, Int.lt_trans hlt (Int.not_le.mp hbefore)⟩

/-- What a step keeps. -/
theorem step (h : IsTended s steps c p) (hreserved : s.margin = s.value) {step : SequenceStep}
    (hstep : step ∈ steps) : IsTended s steps c (step.action.runOn p).2 := by
  rw [step.runOn_moves p.sequence p.catalog]
  -- A step that draws, one that has no effect, and one that alters the sequence.
  cases step with
  | flush target => exact h.flush hstep
  | call call =>
    rcases call.moves_cases p.sequence with rfl | hidle | ⟨u, halters, hmoves⟩
    · exact h.next hreserved
    · rw [SequenceStep.moves, hidle]
      exact h
    · rw [SequenceStep.moves, hmoves]
      exact h.renewed halters

/-- What each step keeps holds after any number of them. -/
theorem afterSteps (hreserved : s.margin = s.value) {rest : List SequenceStep}
    (hrest : rest ⊆ steps) (h : IsTended s steps c p) : IsTended s steps c (p.afterSteps rest) := by
  induction rest generalizing p with
  | nil => exact h
  | cons step rest ih =>
    obtain ⟨hstep, hrest⟩ := List.cons_subset.mp hrest
    exact ih hrest (h.step hreserved hstep)

end StoredSequence.IsTended

/-! ## Opening -/

/-- A schema can be opened on the catalog. -/
def Catalog.CanBeOpened (c : Catalog) : Prop :=
  ∀ cache, ∃ schema c', Schema.openWithCache cache c = (.ok schema, c')

namespace Schema

theorem recoverable_of_canBeOpened {c : Catalog} (h : c.CanBeOpened) :
    ∀ e ∈ c.entries, ∀ d, e.object = .sequence d → Sequence.Recoverable d := by
  obtain ⟨schema, c', hopen⟩ := h 0
  exact (openWithCache_cases hopen).1

/-- A schema can be opened exactly where each sequence can be taken up. -/
theorem canBeOpened_iff {c : Catalog} (hready : c.IsReady) :
    c.CanBeOpened ↔ ∀ e ∈ c.entries, ∀ d, e.object = .sequence d → Sequence.Recoverable d := by
  refine ⟨recoverable_of_canBeOpened, fun h cache => ?_⟩
  -- The scan finds all sequences, and what it needs beyond them can be created.
  rw [openWithCache_eq, recoverAll_eq h]
  dsimp only
  cases ((c.entries.filterMap takenUp?).filter fun e => e.1 = objectIdsName).getLast? with
  | some e => exact ⟨_, _, rfl⟩
  | none =>
    obtain ⟨c', hrun, -⟩ := runOn_createObjectIds hready
    dsimp only
    rw [hrun]
    exact ⟨_, _, rfl⟩

/-- Where one entry of a sequence changes, a schema can be opened exactly if it could before and the
entry can be taken up. -/
theorem canBeOpened_iff_of_sameBut {c c' : Catalog} {name : String} {d d' : SequenceDefinition}
    (hready : c.IsReady) (hsorted : c.store.committed.IsSorted)
    (hsame : c.SameBut ⟨.sequence, name⟩ c')
    (hd : c.entry? ⟨.sequence, name⟩ = some (.ofSequence d))
    (hd' : c'.entry? ⟨.sequence, name⟩ = some (.ofSequence d'))
    (hrecoverable : Sequence.Recoverable d) :
    c'.CanBeOpened ↔ c.CanBeOpened ∧ Sequence.Recoverable d' := by
  rw [hready.entry?_eq] at hd
  rw [hsame.ready.entry?_eq] at hd'
  rw [canBeOpened_iff hready, canBeOpened_iff hsame.ready]
  constructor
  · -- The new definition is one of the entries that are read.
    intro h
    refine ⟨fun e he f hf => ?_, h _ (Catalog.mem_entries_of_get? hd') d' rfl⟩
    have hfiled := hready.get?_of_mem hsorted he
    by_cases hkey : e.key = ⟨.sequence, name⟩
    · rw [hkey, hd] at hfiled
      obtain rfl := Option.some.inj hfiled
      exact CatalogObject.sequence.inj hf ▸ hrecoverable
    · rw [← hsame.others _ hkey] at hfiled
      exact h e (Catalog.mem_entries_of_get? hfiled) f hf
  · -- All other entries are those of the catalog before.
    rintro ⟨h, hrecoverable'⟩ e he f hf
    have hfiled := hsame.ready.get?_of_mem (hsame.sorted hsorted) he
    by_cases hkey : e.key = ⟨.sequence, name⟩
    · rw [hkey, hd'] at hfiled
      obtain rfl := Option.some.inj hfiled
      exact CatalogObject.sequence.inj hf ▸ hrecoverable'
    · rw [hsame.others _ hkey] at hfiled
      exact h e (Catalog.mem_entries_of_get? hfiled) f hf

end Schema

/-! ## Main result -/

namespace Schema

variable {schema schema' : Schema} {name : String} {options : SequenceOptions} {s : Sequence}

/-- A sequence that is created and kept starts out tended. -/
theorem isTended_of_createSequence (hready : schema.catalog.IsReady)
    (htemporary : options.temporary = false)
    (hcreate : (createSequence name options).runOn schema = (.ok s, schema'))
    (steps : List SequenceStep) :
    StoredSequence.IsTended s steps schema'.catalog ⟨s, schema'.catalog⟩ ∧ s.margin = s.value := by
  obtain ⟨id, d, hdefinition, rfl, hready', hstored⟩ :=
    stored_of_createSequence hready htemporary hcreate
  have hvalid := (SequenceOptions.valid_of_definition hdefinition).1
  have hregular := Sequence.isRegular_ofDefinition hvalid.recoverable
  have hrecoverable := hregular.recoverable_definitionAt hregular.begun
  refine ⟨?_, rfl⟩
  -- Right after its creation the sequence is stored at its start.
  exact
    { others := .refl _ hready'
      name := rfl
      persistent := rfl
      regular := hregular
      generation := rfl
      begun := hregular.begun
      fresh := fun _ => .refl _
      named := nofun
      stored := ⟨_, hstored, iff_of_true hrecoverable (by rintro ⟨last, hlast, -⟩; cases hlast)⟩ }

theorem isSorted_of_createSequence (hready : schema.catalog.IsReady)
    (hsorted : schema.catalog.store.committed.IsSorted)
    (hcreate : (createSequence name options).runOn schema = (.ok s, schema')) :
    schema'.catalog.store.committed.IsSorted := by
  obtain ⟨id, d, -, -, -, hcommitted⟩ := made_of_createSequence hready hcreate
  have hnumbered : (nextObjectId.runOn schema).2.catalog.store.committed.IsSorted := by
    rw [state_nextObjectId]
    exact (StoredSequence.keepsToItself_next (p := ⟨schema.objectIds, schema.catalog⟩)
      hready).others.sorted hsorted
  -- The entry of the new sequence is inserted into the table, or nothing is.
  rw [hcommitted]
  split
  · exact hnumbered
  · exact hnumbered.insert _ _

/-- On a catalog that does not fail, a sequence that a schema has created has an entry after any
steps that can be taken up, and a schema can be opened on the catalog as it could before. The one
exception is a margin that the caller has named: it lies before the first bound, it was stored last,
and since the sequence was created no number was drawn and no attribute changed. -/
theorem recoverable_after_steps (hready : schema.catalog.IsReady)
    (hsorted : schema.catalog.store.committed.IsSorted)
    (hcreate : (createSequence name options).runOn schema = (.ok s, schema'))
    (steps : List SequenceStep) :
    let p := (StoredSequence.mk s schema'.catalog).afterSteps steps
    let astray := s.temporary = false ∧ s.Notes p.sequence ∧ ∃ target,
      SequenceStep.flush target ∈ steps ∧ p.sequence.flushedMargin = some target.toInt ∧
        along s.increment target.toInt < along s.increment s.firstBound
    (s.temporary = false → ∃ d, p.catalog.entry? ⟨.sequence, name⟩ = some (.ofSequence d) ∧
        ((∃ t, Sequence.recover d = .ok t) ↔ ¬astray)) ∧
      (p.catalog.CanBeOpened ↔ schema'.catalog.CanBeOpened ∧ ¬astray) := by
  intro p astray
  obtain ⟨id, d, hdefinition, hs, hready', -⟩ := made_of_createSequence hready hcreate
  have htemporary : s.temporary = options.temporary := by rw [hs]
  -- A temporary sequence writes nothing, and so the catalog stays as it is.
  cases hkept : options.temporary with
  | true =>
    have hcatalog : p.catalog = schema'.catalog :=
      StoredSequence.afterSteps_temporary (htemporary.trans hkept) steps
    have hnot : s.temporary ≠ false := by simp [htemporary, hkept]
    refine ⟨fun h => absurd h hnot, ?_⟩
    rw [hcatalog]
    exact ⟨fun h => ⟨h, fun hastray => hnot hastray.1⟩, And.left⟩
  -- The invariant of the steps says what the entry holds in the end.
  | false =>
    obtain ⟨hstart, hreserved⟩ := isTended_of_createSequence hready hkept hcreate steps
    have htended : StoredSequence.IsTended s steps schema'.catalog p :=
      hstart.afterSteps hreserved (List.Subset.refl _)
    have hkey : s.entryKey = ⟨.sequence, name⟩ := by
      rw [hs]
      exact congrArg (ObjectKey.mk .sequence) (SequenceOptions.name_of_definition hdefinition)
    obtain ⟨d₀, hstored₀, hrecoverable₀⟩ := hstart.stored
    obtain ⟨d', hstored, hrecoverable⟩ := htended.stored
    have hothers := htended.others
    -- A sequence is not astray when it is created, as no margin was stored.
    have hfresh : ¬s.IsAstray := by
      rintro ⟨last, hlast, -⟩
      rw [hs] at hlast
      cases hlast
    rw [hkey] at hstored₀ hstored hothers
    -- Being astray is told by the last flush, whose target is before the first bound.
    have hastray : p.sequence.IsAstray ↔ astray := by
      constructor
      · intro hbefore
        have hnotes := htended.fresh (.inr hbefore)
        obtain ⟨last, hlast, hlt⟩ := hbefore
        obtain ⟨target, htarget, rfl⟩ := htended.named hlast hlt
        refine ⟨htemporary.trans hkept, hnotes, target, htarget, hlast, ?_⟩
        obtain ⟨_, _, _, hsame⟩ := hnotes
        rw [hsame] at hlt
        exact hlt
      · rintro ⟨-, ⟨_, _, _, hsame⟩, target, -, hlast, hlt⟩
        refine ⟨target.toInt, hlast, ?_⟩
        rw [hsame]
        exact hlt
    have hrecover : (∃ t, Sequence.recover d' = .ok t) ↔ Sequence.Recoverable d' :=
      ⟨fun ⟨_, h⟩ => (Sequence.eq_of_recover h).1, fun h =>
        ⟨_, Sequence.recover_of_recoverable h⟩⟩
    rw [hastray] at hrecoverable
    refine ⟨fun _ => ⟨d', hstored, hrecover.trans hrecoverable⟩, ?_⟩
    rw [← hrecoverable]
    exact canBeOpened_iff_of_sameBut hready' (isSorted_of_createSequence hready hsorted hcreate)
      hothers hstored₀ hstored (hrecoverable₀.mpr hfresh)

/-- A sequence that goes down from ten gets a margin of fifty, which the close after it leaves in
place. Once a number is drawn the entry can be taken up again, and a later margin that is named
stays behind the first bound. -/
theorem recoverable_after_steps_of_drawn_number :
    let options : SequenceOptions := { SequenceOptions.basic with
      increment := some (-3), minValue := some (-10), maxValue := some 10, cacheSize := some 2 }
    let steps : List SequenceStep := [.flush 50, .call .close, .call .next, .flush (-20)]
    ∃ schema catalog s schema', openWithCache 32 .inMemory = (.ok schema, catalog) ∧
      schema.catalog.IsReady ∧ schema.catalog.store.committed.IsSorted ∧
      (createSequence "rows" options).runOn schema = (.ok s, schema') ∧
      let p := (StoredSequence.mk s schema'.catalog).afterSteps steps
      (∃ d t, p.catalog.entry? ⟨.sequence, "rows"⟩ = some (.ofSequence d) ∧
        Sequence.recover d = .ok t) ∧ p.catalog.CanBeOpened := by
  intro options steps
  obtain ⟨schema, catalog, hopen, hinstep⟩ := isInStep_of_empty Catalog.isReady_inMemory rfl 32
  -- The first number and the one after the steps are computed.
  have hlife : (do
      let schema ← (openWithCache 32 .inMemory).1.toOption
      let r := (createSequence "rows" options).runOn schema
      let s ← r.1.toOption
      return (s.temporary, s.value,
        ((StoredSequence.mk s r.2.catalog).afterSteps steps).sequence.value)) =
      some (false, 10, 7) := by
    decide +kernel
  obtain ⟨_, hfound, hlife⟩ := Option.bind_eq_some_iff.mp hlife
  obtain ⟨s, hmade, hlife⟩ := Option.bind_eq_some_iff.mp hlife
  rw [hopen] at hfound
  obtain rfl := Option.some.inj hfound
  rcases hinstep.createSequence "rows" options with
    ⟨err, hcreate⟩ | ⟨v, s', schema', hcreate, -, hinstep'⟩
  · rw [hcreate] at hmade
    cases hmade
  rw [hcreate] at hmade hlife
  obtain rfl := Option.some.inj hmade
  obtain ⟨htemporary, hvalues⟩ := Prod.mk.inj (Option.some.inj hlife)
  obtain ⟨hbefore, hafter⟩ := Prod.mk.inj hvalues
  obtain ⟨hentry, hopens⟩ :=
    recoverable_after_steps hinstep.ready hinstep.sorted hcreate steps
  -- The cursor has moved, so that more has changed than what is noted about margins.
  have hnotes : ¬s'.Notes ((StoredSequence.mk s' schema'.catalog).afterSteps steps).sequence := by
    rintro ⟨_, _, _, hsame⟩
    rw [hsame, hbefore] at hafter
    cases hafter
  obtain ⟨d, hstored, hrecover⟩ := hentry htemporary
  -- A sequence that has drawn a number is not astray.
  obtain ⟨t, ht⟩ := hrecover.mpr fun h => hnotes h.2.1
  refine ⟨schema, catalog, _, schema', hopen, hinstep.ready, hinstep.sorted, hcreate,
    ⟨d, t, hstored, ht⟩, hopens.mpr ⟨fun cache => ?_, fun h => hnotes h.2.1⟩⟩
  obtain ⟨again, hagain, -⟩ := hinstep'.reopen cache
  exact ⟨again, _, hagain⟩

/-- A sequence that goes up from one is created, and a margin of minus a hundred is stored. Its
entry cannot be taken up, and no schema can be opened on the catalog. -/
theorem target_before_first_bound_refused :
    ∃ schema catalog s schema', openWithCache 32 .inMemory = (.ok schema, catalog) ∧
      (createSequence "rows" .basic).runOn schema = (.ok s, schema') ∧
      let p := (StoredSequence.mk s schema'.catalog).afterSteps [.flush (-100)]
      (∃ d, p.catalog.entry? ⟨.sequence, "rows"⟩ = some (.ofSequence d) ∧
        Sequence.recover d = .error (.sequenceAttributes "rows" (-100) 1 Int64.maxValue 1)) ∧
      ¬p.catalog.CanBeOpened := by
  let d : SequenceDefinition :=
    ⟨⟨1⟩, "rows", -100, 1, 1, Int64.maxValue, 32, false, false, false⟩
  have hlife : (do
      let schema ← (openWithCache 32 .inMemory).1.toOption
      let r := (createSequence "rows" .basic).runOn schema
      let s ← r.1.toOption
      ((StoredSequence.mk s r.2.catalog).afterSteps [.flush (-100)]).catalog.entry?
        ⟨.sequence, "rows"⟩) = some (.ofSequence d) := by
    decide +kernel
  obtain ⟨schema, hopen, hlife⟩ := Option.bind_eq_some_iff.mp hlife
  obtain ⟨s, hcreate, hlife⟩ := Option.bind_eq_some_iff.mp hlife
  -- The definition starts at -100, which is before its least value.
  have hlost : ¬Sequence.Recoverable d := by decide +kernel
  refine ⟨schema, _, s, _, eq_ok_of_toOption_fst hopen, eq_ok_of_toOption_fst hcreate,
    ⟨d, hlife, if_neg hlost⟩, fun h => hlost ?_⟩
  exact recoverable_of_canBeOpened h _ (List.mem_of_find?_eq_some hlife) d rfl

end Schema

end TxnStore
