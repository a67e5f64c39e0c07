import TxnStore.Proofs.Sequences.Calls

/-!
# Sequences that the catalog keeps up with

On a catalog whose store does not fail, the entry of a sequence has the end of what is reserved
after each call: as long as nothing is reserved, the entry starts at the cursor itself. A margin
beyond the words is stored as the last word and a mark. It comes back as another number, but both
lie beyond every word, and so every number that can be handed out lies before both of them or behind
both.
-/

namespace TxnStore

open TxnStore.Action

/-! ## Numbers beyond the words -/

/-- Two numbers that are the same or both lie beyond all words in the direction of a step. -/
def SameAhead (step : Int64) (m n : Int) : Prop :=
  m = n ∨ ∀ v : Int64, along step v.toInt < along step m ∧ along step v.toInt < along step n

namespace SameAhead

variable {step : Int64} {m n : Int}

theorem refl (step : Int64) (n : Int) : SameAhead step n n := .inl rfl

theorem symm (h : SameAhead step m n) : SameAhead step n m := by
  rcases h with rfl | hbeyond
  · exact .inl rfl
  · exact .inr fun v => (hbeyond v).symm

theorem trans {k : Int} (h : SameAhead step k m) (h' : SameAhead step m n) :
    SameAhead step k n := by
  rcases h with rfl | hbeyond
  · exact h'
  rcases h' with rfl | hbeyond'
  · exact .inr hbeyond
  · exact .inr fun v => ⟨(hbeyond v).1, (hbeyond' v).2⟩

/-- A word lies before both numbers or before none of them. -/
theorem lt_iff (h : SameAhead step m n) (v : Int64) :
    along step v.toInt < along step m ↔ along step v.toInt < along step n := by
  rcases h with rfl | hbeyond
  · rfl
  · exact iff_of_true (hbeyond v).1 (hbeyond v).2

/-- The numbers are the same where one of them does not lie beyond a word. -/
theorem eq_of_not_lt (h : SameAhead step m n) {v : Int64}
    (hv : ¬along step v.toInt < along step m) : m = n := by
  rcases h with rfl | hbeyond
  · rfl
  · exact absurd (hbeyond v).1 hv

end SameAhead

/-! ## Definitions that go on with a sequence -/

/-- What is taken up from the definition has the attributes of the sequence and goes on at the given
number. -/
structure SequenceDefinition.Resumes (d : SequenceDefinition) (s : Sequence) (n : Int) : Prop where
  recoverable : Sequence.Recoverable d
  id : d.id = s.id
  name : d.name = s.name
  increment : d.increment = s.increment
  minValue : d.minValue = s.minValue
  maxValue : d.maxValue = s.maxValue
  cache : max d.cacheSize 1 = s.cacheSize
  cycle : d.cycle = s.cycle
  belongs : d.belongsToTable = s.belongsToTable
  ahead : SameAhead s.increment d.nextValue n

def Sequence.takenUp (d : SequenceDefinition) : Sequence :=
  { ofDefinition d with flushedMargin := some d.nextValue }

namespace SequenceDefinition

/-- Drawing a number changes no attribute. -/
theorem Resumes.drawn {d : SequenceDefinition} {s : Sequence} {n : Int} (h : d.Resumes s n)
    (margin : Int) : d.Resumes (s.drawn margin) n :=
  ⟨h.recoverable, h.id, h.name, h.increment, h.minValue, h.maxValue, h.cache, h.cycle, h.belongs,
    h.ahead⟩

/-- A definition goes on with what is taken up from it. -/
theorem resumes_takenUp {d : SequenceDefinition} (h : Sequence.Recoverable d) :
    d.Resumes (Sequence.takenUp d) d.nextValue :=
  ⟨h, rfl, rfl, rfl, rfl, rfl, rfl, rfl, rfl, .refl _ _⟩

end SequenceDefinition

namespace Sequence

variable {s : Sequence}

/-- A margin that is stored is one that the definition goes on at. -/
theorem IsRegular.sameAhead_nextValue (h : s.IsRegular) {m : Int}
    (hm : along s.increment s.firstBound ≤ along s.increment m) :
    SameAhead s.increment (s.definitionAt m).nextValue m := by
  have hmoves := h.moves
  obtain ⟨hleast, hgreatest⟩ := word_limits
  rw [firstBound_eq] at hm
  have hfirst := word_bounds (if 0 < s.increment.toInt then s.minValue else s.maxValue)
  rw [nextValue_definitionAt]
  unfold SameAhead
  unfold along at hm ⊢
  by_cases hup : 0 < s.increment.toInt
  · -- Ascending, a margin beyond the greatest word is stored as that word.
    simp only [if_pos hup] at hm hfirst ⊢
    split
    · -- Beyond the words, the step behind the last word comes back.
      refine .inr fun v => ?_
      have hword := word_bounds v
      omega
    · exact .inl (by omega)
  · -- Descending, the same holds at the least word.
    simp only [if_neg hup] at hm hfirst ⊢
    split
    · refine .inr fun v => ?_
      have hword := word_bounds v
      omega
    · exact .inl (by omega)

theorem IsRegular.resumes_definitionAt (h : s.IsRegular) {m : Int}
    (hm : along s.increment s.firstBound ≤ along s.increment m) :
    (s.definitionAt m).Resumes s m :=
  { recoverable := h.recoverable_definitionAt hm
    id := rfl
    name := rfl
    increment := rfl
    minValue := rfl
    maxValue := rfl
    cache := max_one_of_le h.cache
    cycle := rfl
    belongs := rfl
    ahead := h.sameAhead_nextValue hm }

end Sequence

/-! ## Kept sequences -/

/-- A sequence whose entry in the catalog has the end of what is reserved. -/
structure StoredSequence.IsKept (p : StoredSequence) : Prop where
  ready : p.catalog.IsReady
  persistent : p.sequence.temporary = false
  regular : p.sequence.IsRegular
  generation : p.sequence.flushedGeneration = p.sequence.generation
  flushed : ∀ {last}, p.sequence.flushedMargin = some last → last = p.sequence.margin
  fresh : p.sequence.flushedMargin = none → p.sequence.margin = p.sequence.value
  begun : along p.sequence.increment p.sequence.firstBound ≤
    along p.sequence.increment p.sequence.margin
  stored : ∃ d, (p.catalog.entry? p.sequence.entryKey).map CatalogEntry.object =
    some (.sequence d) ∧ d.Resumes p.sequence p.sequence.margin

namespace StoredSequence

variable {p : StoredSequence}

/-- A sequence is kept once its margin is stored. -/
theorem IsKept.of_flushMargin {s : Sequence} {catalog : Catalog} {r : Reservation}
    (hready : catalog.IsReady) (hpersistent : s.temporary = false) (hregular : s.IsRegular)
    (hbegun : along s.increment s.firstBound ≤ along s.increment s.margin)
    (hr : r = s.reservationAt s.margin) (hnews : s.shouldFlush r = true) :
    ∃ p, (flushMargin r).runOn ⟨s, catalog⟩ = (.ok (), p) ∧ p.sequence = s.flushed r ∧
      p.IsKept := by
  -- The flush writes the definition at the margin, from which the sequence resumes.
  obtain ⟨catalog', hready', hentry, hrun⟩ :=
    runOn_flushMargin (p := ⟨s, catalog⟩) hready hpersistent hnews
  subst hr
  obtain ⟨hrecoverable, hid, hname, hincrement, hmin, hmax, hcache, hcycle, hbelongs, hahead⟩ :=
    hregular.resumes_definitionAt hbegun
  exact ⟨_, hrun, rfl,
    { ready := hready'
      persistent := hpersistent
      regular := ⟨hregular.moves, hregular.step, hregular.cache, hregular.begun⟩
      generation := rfl
      flushed := fun hlast => (Option.some.inj hlast).symm
      fresh := nofun
      begun := hbegun
      stored := ⟨_, congrArg (Option.map _) hentry, hrecoverable, hid, hname, hincrement, hmin,
        hmax, hcache, hcycle, hbelongs, hahead⟩ }⟩

/-- A sequence that is taken up from its entry is kept. -/
theorem isKept_takenUp {catalog : Catalog} (hready : catalog.IsReady) {d : SequenceDefinition}
    (hstored : (catalog.entry? ⟨.sequence, d.name⟩).map CatalogEntry.object = some (.sequence d))
    (hrecoverable : Sequence.Recoverable d) : IsKept ⟨Sequence.takenUp d, catalog⟩ := by
  obtain ⟨hmoves, hstep, hcache, hbegun⟩ := Sequence.isRegular_ofDefinition hrecoverable
  exact
    { ready := hready
      persistent := rfl
      regular := ⟨hmoves, hstep, hcache, hbegun⟩
      generation := rfl
      flushed := fun hlast => (Option.some.inj hlast).symm
      fresh := nofun
      begun := hbegun
      stored := ⟨d, hstored, SequenceDefinition.resumes_takenUp hrecoverable⟩ }

namespace IsKept

/-- A margin that lies ahead of the one before is news. -/
theorem shouldFlush_of_ahead (h : p.IsKept) {margin : Int}
    (hahead : along p.sequence.increment p.sequence.margin < along p.sequence.increment margin) :
    (p.sequence.drawn margin).shouldFlush ⟨margin, p.sequence.generation⟩ = true := by
  refine (Sequence.shouldFlush_iff h.generation.symm).mpr fun last hlast => ?_
  rw [h.flushed hlast]
  exact hahead

theorem next (h : p.IsKept) : (StoredSequence.next.runOn p).2.IsKept := by
  rw [runOn_next]
  -- An exhausted sequence, one that starts over, and one that goes on.
  rcases p.sequence.draw_cases with ⟨-, -, hdraw⟩ | ⟨-, -, hdraw⟩ | ⟨-, hdraw⟩
  · rw [hdraw]
    exact h
  · rw [hdraw]
    -- Starting over starts a new generation, which is news wherever its margin lies.
    have hnews : p.sequence.wrapped.shouldFlush
        ⟨p.sequence.reserveFrom p.sequence.firstBound, p.sequence.generation + 1⟩ = true := by
      apply Sequence.shouldFlush_of_lt
      show p.sequence.flushedGeneration < p.sequence.generation + 1
      rw [h.generation]
      exact Nat.lt_succ_self _
    obtain ⟨p', hrun, -, hkept⟩ := of_flushMargin
      (s := p.sequence.wrapped)
      (r := ⟨p.sequence.reserveFrom p.sequence.firstBound, p.sequence.generation + 1⟩) h.ready
      h.persistent h.regular.wrapped (Int.le_of_lt (h.regular.lt_reserveFrom _)) rfl hnews
    dsimp only
    rw [hrun]
    exact hkept
  · rw [hdraw]
    have hregular := h.regular.drawn p.sequence.marginAfter
    dsimp only [Sequence.reservationAfter]
    unfold Sequence.marginAfter at hregular ⊢
    cases hused : p.sequence.isUsedUp with
    -- The last reserved number is handed out, and the next block is reserved with it.
    | true =>
      simp only [hused, if_true] at hregular ⊢
      have hahead := h.regular.lt_reserveFrom p.sequence.margin
      obtain ⟨p', hrun, -, hkept⟩ := of_flushMargin
        (s := p.sequence.drawn (p.sequence.reserveFrom p.sequence.margin))
        (r := ⟨p.sequence.reserveFrom p.sequence.margin, p.sequence.generation⟩) h.ready
        h.persistent hregular (Int.le_trans h.begun (Int.le_of_lt hahead)) rfl
        (h.shouldFlush_of_ahead hahead)
      rw [hrun]
      exact hkept
    | false =>
      simp only [hused, Bool.false_eq_true, if_false] at hregular ⊢
      -- Something is reserved, and so the entry has the end of it.
      have hfresh : p.sequence.flushedMargin ≠ none := by
        intro hnone
        have hsame := h.fresh hnone
        have hnot := mt p.sequence.isUsedUp_iff.mpr (by simp [hused])
        rw [hsame] at hnot
        exact hnot (Int.le_refl _)
      exact ⟨h.ready, h.persistent, hregular, h.generation, h.flushed,
        fun hnone => absurd hnone hfresh, h.begun, h.stored.imp fun d hd => ⟨hd.1, hd.2.drawn _⟩⟩

/-- Changing attributes keeps a sequence whose changed attributes are regular. -/
theorem alter (h : p.IsKept) {f : Sequence → Sequence} (hf : p.sequence.Alters (f p.sequence)) :
    ∃ p', (StoredSequence.alter f).runOn p = (.ok (), p') ∧ p'.IsKept := by
  have hregular := hf.regular h.regular
  -- What stays reserved was kept before, and what is not reserved starts at the cursor.
  have hbegun : along (f p.sequence).increment (f p.sequence).firstBound ≤
      along (f p.sequence).increment (f p.sequence).margin := by
    rcases hf.reserved with hsame | hsame
    · rw [hsame]
      exact hregular.begun
    · rw [hsame]
      exact h.begun
  have hpersistent : (f p.sequence).temporary = false := by
    rw [hf.same]
    exact h.persistent
  have hflushed : (f p.sequence).flushedGeneration = p.sequence.generation := by
    rw [hf.same]
    exact h.generation
  -- Every alteration starts a generation of its own, and so its flush is never skipped.
  have hnews : Sequence.shouldFlush
      { f p.sequence with generation := p.sequence.generation + 1 }
      ⟨(f p.sequence).margin, p.sequence.generation + 1⟩ = true := by
    apply Sequence.shouldFlush_of_lt
    show (f p.sequence).flushedGeneration < p.sequence.generation + 1
    omega
  obtain ⟨p', hrun, -, hkept⟩ := of_flushMargin
    (r := ⟨(f p.sequence).margin, p.sequence.generation + 1⟩)
    (s := { f p.sequence with generation := p.sequence.generation + 1 }) h.ready hpersistent
    ⟨hregular.moves, hregular.step, hregular.cache, hregular.begun⟩ hbegun rfl hnews
  refine ⟨p', ?_, hkept⟩
  rw [runOn_alter]
  exact hrun

end IsKept

end StoredSequence

/-- Each call keeps a sequence. -/
theorem SequenceCall.keeps_kept {p : StoredSequence} (h : p.IsKept) (c : SequenceCall) :
    (c.action.runOn p).2.IsKept := by
  -- A call draws, is refused, does nothing, or alters the sequence and flushes.
  cases c.effect p with
  | drawn =>
    rw [action, runOn_map]
    exact h.next
  | refused hrun _ =>
    rw [hrun]
    exact h
  | idle hrun =>
    rw [hrun]
    exact h
  | altered hrun halters =>
    obtain ⟨p', hrun', hkept⟩ := h.alter halters
    rw [hrun, runOn_numberless, hrun']
    exact hkept

end TxnStore
