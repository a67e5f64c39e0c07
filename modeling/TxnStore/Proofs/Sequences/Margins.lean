import TxnStore.Proofs.Sequences.Operations

/-!
# Numbers in the direction of a sequence

A sequence goes up or down. Seen in its direction it always goes up, and so the laws of both kinds
are one. A margin that lies beyond the words is stored as the last word and a mark; what starts from
there hands out no number again that lies before the margin.
-/

namespace TxnStore

/-- How far a number lies in the direction of a step. -/
def along (step : Int64) (n : Int) : Int := if 0 < step.toInt then n else -n

theorem along_add (step : Int64) (m n : Int) :
    along step (m + n) = along step m + along step n := by
  unfold along
  split <;> omega

theorem along_step_pos {step : Int64} (h : step.toInt ≠ 0) : 0 < along step step.toInt := by
  unfold along
  split <;> omega

theorem along_mul (step : Int64) (n k : Int) : along step (n * k) = along step n * k := by
  unfold along
  split
  · rfl
  · rw [Int.neg_mul]

/-- A number of steps leads forward. -/
theorem along_steps {step : Int64} (n : Int) (k : Nat) :
    along step (n + step.toInt * k) = along step n + along step step.toInt * k := by
  rw [along_add, along_mul]

/-- A further step leads further. -/
theorem along_step_le {step : Int64} (h : step.toInt ≠ 0) {k : Int} (hk : 1 ≤ k) :
    along step step.toInt ≤ along step step.toInt * k := by
  have hmul := Int.mul_le_mul_of_nonneg_left hk (Int.le_of_lt (along_step_pos h))
  rwa [Int.mul_one] at hmul

/-! ## Words -/

theorem word_limits :
    leastWord = -0x8000000000000000 ∧ greatestWord = 0x7fffffffffffffff := ⟨rfl, rfl⟩

theorem toInt_saturate (n : Int) :
    (saturate n).toInt = max leastWord (min n greatestWord) := by
  obtain ⟨hleast, hgreatest⟩ := word_limits
  unfold saturate
  apply Int64.toInt_ofInt_of_le <;> omega

/-- A number that a word can be is left as it is. -/
theorem toInt_saturate_of_word {n : Int} (hlow : leastWord ≤ n) (hhigh : n ≤ greatestWord) :
    (saturate n).toInt = n := by
  rw [toInt_saturate]
  omega

/-- What lies no further on than a number does so as a word as well. -/
theorem along_saturate_le {step : Int64} {m n : Int} (h : along step m ≤ along step n) :
    along step (saturate m).toInt ≤ along step (saturate n).toInt := by
  obtain ⟨hleast, hgreatest⟩ := word_limits
  rw [toInt_saturate, toInt_saturate]
  unfold along at h ⊢
  split at h <;> omega

theorem word_bounds (v : Int64) : leastWord ≤ v.toInt ∧ v.toInt ≤ greatestWord := by
  obtain ⟨hleast, hgreatest⟩ := word_limits
  have hlow := v.le_toInt
  have hhigh := v.toInt_lt
  omega

theorem max_one (v : Int64) : max v 1 = if v ≤ 1 then 1 else v := rfl

theorem one_le_toInt_max (v : Int64) : 1 ≤ (max v 1).toInt := by
  rw [max_one]
  split
  · decide
  · next h =>
    have hone : (1 : Int64).toInt = 1 := rfl
    rw [Int64.le_iff_toInt_le] at h
    omega

/-- A cache size that is one at least stays as it is. -/
theorem max_one_of_le {v : Int64} (h : 1 ≤ v.toInt) : max v 1 = v := by
  rw [max_one]
  split
  · next hle =>
    have hone : (1 : Int64).toInt = 1 := rfl
    rw [Int64.le_iff_toInt_le] at hle
    exact Int64.toInt_inj.mp (by omega)
  · rfl

/-! ## Margins in the catalog -/

/-- A definition starts at a word or one step behind it. -/
theorem SequenceDefinition.along_start_le_nextValue {d : SequenceDefinition}
    (h : d.increment.toInt ≠ 0) :
    along d.increment d.start.toInt ≤ along d.increment d.nextValue := by
  have hpos := along_step_pos h
  unfold nextValue
  split
  · rw [along_add]
    omega
  · exact Int.le_refl _

namespace Sequence

variable {s : Sequence}

theorem nextValue_definitionAt (s : Sequence) (m : Int) :
    (s.definitionAt m).nextValue =
      if 0 < s.increment.toInt then
        if m > greatestWord then greatestWord + s.increment.toInt else max leastWord m
      else
        if m < leastWord then leastWord + s.increment.toInt else min m greatestWord := by
  obtain ⟨hleast, hgreatest⟩ := word_limits
  unfold SequenceDefinition.nextValue definitionAt ascending
  simp only [toInt_saturate]
  -- In each direction the margin may lie beyond the last word, or not.
  by_cases hup : 0 < s.increment.toInt
  · by_cases hm : m > greatestWord
    · simp only [hup, hm, decide_true, if_true]
      omega
    · simp only [hup, hm, decide_true, decide_false, if_true, if_false, Bool.false_eq_true]
      omega
  · by_cases hm : m < leastWord
    · simp only [hup, hm, decide_true, decide_false, if_true, if_false, Bool.false_eq_true]
      omega
    · simp only [hup, hm, decide_false, if_false, Bool.false_eq_true]
      omega

/-- What starts at a stored margin comes after the same words as the margin does. -/
theorem along_lt_nextValue_iff (h : s.increment.toInt ≠ 0) (v : Int64) (m : Int) :
    along s.increment v.toInt < along s.increment (s.definitionAt m).nextValue ↔
      along s.increment v.toInt < along s.increment m := by
  have hv := word_bounds v
  rw [nextValue_definitionAt]
  unfold along
  by_cases hup : 0 < s.increment.toInt
  · simp only [if_pos hup]
    split <;> omega
  · simp only [if_neg hup]
    split <;> omega

/-- What starts at a stored margin comes no sooner than the words before the margin. -/
theorem along_le_nextValue {v : Int64} {m : Int}
    (hv : along s.increment v.toInt ≤ along s.increment m) :
    along s.increment v.toInt ≤ along s.increment (s.definitionAt m).nextValue := by
  have hword := word_bounds v
  rw [nextValue_definitionAt]
  unfold along at hv ⊢
  by_cases hup : 0 < s.increment.toInt
  · simp only [if_pos hup] at hv ⊢
    split <;> omega
  · simp only [if_neg hup] at hv ⊢
    split <;> omega

/-- What starts at a stored margin starts at the word of the margin. -/
theorem saturate_nextValue_definitionAt (s : Sequence) (m : Int) :
    saturate (s.definitionAt m).nextValue = saturate m := by
  obtain ⟨hleast, hgreatest⟩ := word_limits
  apply Int64.toInt_inj.mp
  rw [toInt_saturate, toInt_saturate, nextValue_definitionAt]
  by_cases hup : 0 < s.increment.toInt
  · rw [if_pos hup]
    split <;> omega
  · rw [if_neg hup]
    split <;> omega

/-- A stored margin is stored again as it is. -/
theorem definitionAt_nextValue (h : s.increment.toInt ≠ 0) (m : Int) :
    s.definitionAt (s.definitionAt m).nextValue = s.definitionAt m := by
  obtain ⟨hleast, hgreatest⟩ := word_limits
  have hnext := nextValue_definitionAt s m
  generalize (s.definitionAt m).nextValue = n at hnext
  -- The start is the same word, since only margins beyond the words are moved.
  have hstart : saturate n = saturate m := by
    unfold saturate
    congr 1
    by_cases hup : 0 < s.increment.toInt
    · rw [if_pos hup] at hnext
      split at hnext <;> omega
    · rw [if_neg hup] at hnext
      split at hnext <;> omega
  -- And a margin beyond the words stays beyond them.
  have hexhausted : (if s.ascending then decide (n > greatestWord) else decide (n < leastWord)) =
      if s.ascending then decide (m > greatestWord) else decide (m < leastWord) := by
    unfold ascending
    by_cases hup : 0 < s.increment.toInt
    · rw [if_pos hup] at hnext
      simp only [hup, decide_true, if_true, decide_eq_decide]
      split at hnext <;> omega
    · rw [if_neg hup] at hnext
      simp only [hup, decide_false, if_false, Bool.false_eq_true, decide_eq_decide]
      split at hnext <;> omega
  simp only [definitionAt, hstart]
  simp only [SequenceDefinition.mk.injEq, true_and]
  exact hexhausted

/-! ## Drawing -/

theorem isUsedUp_iff (s : Sequence) :
    s.isUsedUp = true ↔ along s.increment s.margin ≤ along s.increment s.value := by
  unfold isUsedUp ascending along
  by_cases hup : 0 < s.increment.toInt
  · simp [hup]
  · simp [hup]

/-- As many steps as are reserved lie between the cursor and the margin. -/
theorem isUsedUp_eq {step : Int64} (hincrement : s.increment = step) (h : step.toInt ≠ 0) {k : Nat}
    (hk : s.margin = s.value + step.toInt * k) : s.isUsedUp = decide (k = 0) := by
  have hpos := along_step_pos h
  have hsteps : along step s.margin = along step s.value + along step step.toInt * k := by
    rw [hk, along_steps]
  -- The margin coincides with the cursor exactly when no step lies between them.
  cases k with
  | zero =>
    rw [decide_eq_true rfl, s.isUsedUp_iff, hincrement, hsteps]
    simp
  | succ k =>
    rw [decide_eq_false (Nat.succ_ne_zero k), ← Bool.not_eq_true, s.isUsedUp_iff, hincrement]
    have hone := along_step_le h (k := (k + 1 : Nat)) (by omega)
    omega

/-- The sequence once its next number is handed out. -/
def drawn (s : Sequence) (margin : Int) : Sequence :=
  { s with value := s.value + s.increment.toInt, margin }

theorem draw_of_isPastBound (hcycle : s.cycle = false) (h : s.isPastBound = true) :
    s.draw = .error (.sequenceExhausted s.name) := by
  rw [draw, if_pos h, hcycle]
  rfl

theorem draw_of_isUsedUp (hpast : s.isPastBound = false) (h : s.isUsedUp = true) :
    s.draw = .ok
      { number := s.value
        sequence := s.drawn (s.reserveFrom s.margin)
        reservation := some ⟨s.reserveFrom s.margin, s.generation⟩ } := by
  rw [draw, if_neg (by simp [hpast]), if_pos h]
  rfl

theorem draw_of_not_isUsedUp (hpast : s.isPastBound = false) (h : s.isUsedUp = false) :
    s.draw = .ok { number := s.value, sequence := s.drawn s.margin, reservation := none } := by
  rw [draw, if_neg (by simp [hpast]), if_neg (by simp [h])]
  rfl

/-- A number between a word and the last bound is a word. -/
theorem toInt_saturate_value {first : Int64}
    (hfirst : along s.increment first.toInt ≤ along s.increment s.value)
    (hpast : s.isPastBound = false) : (saturate s.value).toInt = s.value := by
  have hword := word_bounds first
  have hmin := word_bounds s.minValue
  have hmax := word_bounds s.maxValue
  unfold along at hfirst
  unfold isPastBound ascending at hpast
  -- One end of the words is kept by the number it starts from, the other one by the bound.
  apply toInt_saturate_of_word
  all_goals
    by_cases hup : 0 < s.increment.toInt
    · simp only [hup, decide_true, if_true, decide_eq_false_iff_not] at hfirst hpast
      omega
    · simp only [hup, decide_false, if_false, Bool.false_eq_true,
        decide_eq_false_iff_not] at hfirst hpast
      omega

/-! ## News to the catalog -/

theorem shouldFlush_of_lt {r : Reservation} (h : s.flushedGeneration < r.generation) :
    s.shouldFlush r = true := by
  rw [shouldFlush, if_pos (Nat.ne_of_gt h)]
  exact decide_eq_true h

/-- Within a generation a margin is news that lies behind the one committed last. -/
theorem shouldFlush_iff {r : Reservation} (h : r.generation = s.flushedGeneration) :
    s.shouldFlush r = true ↔ ∀ last, s.flushedMargin = some last →
      along s.increment last < along s.increment r.margin := by
  rw [shouldFlush, if_neg (by simp [h])]
  cases s.flushedMargin with
  | none => simp
  | some last =>
    unfold ascending along
    by_cases hup : 0 < s.increment.toInt
    · simp [hup]
    · simp [hup]

/-- A margin of the generation committed last that is no news lies no further on than the one
committed last. -/
theorem exists_further_of_not_shouldFlush {r : Reservation} (s : Sequence)
    (h : r.generation = s.flushedGeneration) (hnews : s.shouldFlush r = false) :
    ∃ last, s.flushedMargin = some last ∧
      along s.increment r.margin ≤ along s.increment last := by
  have hnot := mt (shouldFlush_iff h).mpr (by simp [hnews])
  simpa using hnot

end Sequence

end TxnStore
