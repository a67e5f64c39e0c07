import TxnStore.Proofs.Sequences.Margins

/-!
# Regular sequences

The attributes of a regular sequence are those that options or a stored definition can have: it
moves, a step leads from somewhere within the bounds to somewhere else, and at least one number is
reserved at a time. Its cursor may lie far beyond the last bound, but not before the first one.
Hence a number that is drawn lies within both bounds.
-/

namespace TxnStore

/-- The attributes make a sequence, and the cursor does not lie before the first bound. -/
structure Sequence.IsRegular (s : Sequence) : Prop where
  moves : s.increment.toInt ≠ 0
  step : (s.increment.toInt.natAbs : Int) < s.maxValue.toInt - s.minValue.toInt
  cache : 1 ≤ s.cacheSize.toInt
  begun : along s.increment s.firstBound ≤ along s.increment s.value

/-! ## Definitions that can be taken up -/

theorem Sequence.firstBound_eq (s : Sequence) :
    s.firstBound = (if 0 < s.increment.toInt then s.minValue else s.maxValue).toInt := by
  unfold firstBound ascending
  by_cases hup : 0 < s.increment.toInt
  · simp [hup]
  · simp [hup]

/-- A definition needs a step that leads on within the bounds, and a start that does not lie before
the first bound. -/
theorem Sequence.recoverable_iff (d : SequenceDefinition) :
    Recoverable d ↔ d.increment.toInt ≠ 0 ∧
      (d.increment.toInt.natAbs : Int) < d.maxValue.toInt - d.minValue.toInt ∧
      along d.increment (ofDefinition d).firstBound ≤ along d.increment d.start.toInt := by
  rw [firstBound_eq]
  unfold Recoverable AttributesValid along ofDefinition
  by_cases hup : 0 < d.increment.toInt
  · simp only [if_pos hup]
    omega
  · simp only [if_neg hup]
    omega

/-- A start within the bounds does not lie before the first one. -/
theorem AttributesValid.recoverable {d : SequenceDefinition}
    (h : AttributesValid d.start d.minValue d.maxValue d.increment) : Sequence.Recoverable d := by
  unfold Sequence.Recoverable
  unfold AttributesValid at h ⊢
  split
  · omega
  · omega

/-- A sequence that is taken up is that of its definition, and all of it counts as stored. -/
theorem Sequence.eq_of_recover {d : SequenceDefinition} {s : Sequence} (h : recover d = .ok s) :
    Recoverable d ∧ s = { ofDefinition d with flushedMargin := some d.nextValue } := by
  unfold recover at h
  split at h
  · next hrecoverable => exact ⟨hrecoverable, (Except.ok.inj h).symm⟩
  · cases h

theorem Sequence.recover_of_recoverable {d : SequenceDefinition} (h : Recoverable d) :
    recover d = .ok { ofDefinition d with flushedMargin := some d.nextValue } :=
  if_pos h

/-- The sequence of a definition that can be taken up is regular. -/
theorem Sequence.isRegular_ofDefinition {d : SequenceDefinition} (h : Recoverable d) :
    (ofDefinition d).IsRegular := by
  obtain ⟨hmoves, hstep, hbegun⟩ := (recoverable_iff d).mp h
  exact ⟨hmoves, hstep, one_le_toInt_max _,
    Int.le_trans hbegun (SequenceDefinition.along_start_le_nextValue hmoves)⟩

namespace Sequence.IsRegular

variable {s : Sequence}

/-- Where a margin is stored that does not lie before the first bound, the sequence can be taken up
again. -/
theorem recoverable_definitionAt (h : s.IsRegular) {m : Int}
    (hm : along s.increment s.firstBound ≤ along s.increment m) :
    Recoverable (s.definitionAt m) := by
  refine (recoverable_iff _).mpr ⟨h.moves, h.step, ?_⟩
  have hmin := word_bounds s.minValue
  have hmax := word_bounds s.maxValue
  have hstart := toInt_saturate m
  rw [firstBound_eq] at hm ⊢
  unfold along at hm ⊢
  unfold ofDefinition definitionAt
  -- A sequence that goes up starts at or above its lower bound, one that goes down at or below the
  -- upper one.
  by_cases hup : 0 < s.increment.toInt
  · simp only [if_pos hup] at hm ⊢
    omega
  · simp only [if_neg hup] at hm ⊢
    omega

/-! ## Drawing -/

/-- One step beyond the cursor does not lie before the first bound either. -/
theorem drawn (h : s.IsRegular) (margin : Int) : (s.drawn margin).IsRegular := by
  have hpos := along_step_pos h.moves
  have hbegun := h.begun
  refine ⟨h.moves, h.step, h.cache, ?_⟩
  show along s.increment s.firstBound ≤ along s.increment (s.value + s.increment.toInt)
  rw [along_add]
  omega

/-- Reserving leads forward. -/
theorem lt_reserveFrom (h : s.IsRegular) (n : Int) :
    along s.increment n < along s.increment (s.reserveFrom n) := by
  have hpos := along_step_pos h.moves
  have hone := along_step_le h.moves h.cache
  rw [reserveFrom, along_add, along_mul]
  omega

/-- A number that is not past the last bound lies within both. -/
theorem value_within (h : s.IsRegular) (hpast : s.isPastBound = false) :
    s.minValue.toInt ≤ s.value ∧ s.value ≤ s.maxValue.toInt := by
  have hbegun := h.begun
  rw [firstBound_eq] at hbegun
  unfold isPastBound ascending at hpast
  unfold along at hbegun
  by_cases hup : 0 < s.increment.toInt
  · simp only [hup, decide_true, if_true, decide_eq_false_iff_not] at hbegun hpast
    omega
  · simp only [hup, decide_false, Bool.false_eq_true, if_false,
      decide_eq_false_iff_not] at hbegun hpast
    omega

theorem firstBound_within (h : s.IsRegular) :
    s.minValue.toInt ≤ s.firstBound ∧ s.firstBound ≤ s.maxValue.toInt := by
  have hstep := h.step
  rw [firstBound_eq]
  split
  · omega
  · omega

end Sequence.IsRegular

namespace Sequence

/-- The sequence once it has started over and handed out the first number of the round. -/
def wrapped (s : Sequence) : Sequence :=
  { s with
    value := s.firstBound + s.increment.toInt
    margin := s.reserveFrom s.firstBound
    generation := s.generation + 1 }

theorem IsRegular.wrapped {s : Sequence} (h : s.IsRegular) : s.wrapped.IsRegular := by
  have hpos := along_step_pos h.moves
  refine ⟨h.moves, h.step, h.cache, ?_⟩
  show along s.increment s.firstBound ≤ along s.increment (s.firstBound + s.increment.toInt)
  rw [along_add]
  omega

/-- The margin once the next number is handed out without starting over. -/
def marginAfter (s : Sequence) : Int := if s.isUsedUp then s.reserveFrom s.margin else s.margin

/-- The margin that is stored when the next number is handed out without starting over. -/
def reservationAfter (s : Sequence) : Option Reservation :=
  if s.isUsedUp then some ⟨s.marginAfter, s.generation⟩ else none

/-- All that drawing can do: the sequence is exhausted, it starts over, or it goes on. -/
theorem draw_cases (s : Sequence) :
    (s.isPastBound = true ∧ s.cycle = false ∧ s.draw = .error (.sequenceExhausted s.name)) ∨
      (s.isPastBound = true ∧ s.cycle = true ∧ s.draw = .ok
        { number := s.firstBound
          sequence := s.wrapped
          reservation := some ⟨s.reserveFrom s.firstBound, s.generation + 1⟩ }) ∨
      (s.isPastBound = false ∧ s.draw = .ok
        { number := s.value
          sequence := s.drawn s.marginAfter
          reservation := s.reservationAfter }) := by
  by_cases hpast : s.isPastBound = true
  · by_cases hcycle : s.cycle = true
    · refine .inr (.inl ⟨hpast, hcycle, ?_⟩)
      rw [draw, if_pos hpast, if_pos hcycle]
      rfl
    · refine .inl ⟨hpast, by simpa using hcycle, ?_⟩
      rw [draw, if_pos hpast, if_neg hcycle]
  · refine .inr (.inr ⟨by simpa using hpast, ?_⟩)
    rw [draw, if_neg hpast, reservationAfter, marginAfter]
    split <;> rfl

/-- What is drawn from a regular sequence lies within its bounds and leaves it regular. -/
theorem IsRegular.of_draw {s : Sequence} (h : s.IsRegular) {d : Draw} (hdraw : s.draw = .ok d) :
    d.sequence.IsRegular ∧ s.minValue.toInt ≤ d.number ∧ d.number ≤ s.maxValue.toInt := by
  rcases s.draw_cases with ⟨-, -, hrun⟩ | ⟨-, -, hrun⟩ | ⟨hpast, hrun⟩
  · rw [hrun] at hdraw
    cases hdraw
  · rw [hrun] at hdraw
    obtain rfl := Except.ok.inj hdraw
    exact ⟨h.wrapped, h.firstBound_within⟩
  · rw [hrun] at hdraw
    obtain rfl := Except.ok.inj hdraw
    exact ⟨h.drawn _, h.value_within hpast⟩

end Sequence

end TxnStore
