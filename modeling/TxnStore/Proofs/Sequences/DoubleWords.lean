import TxnStore.Proofs.Sequences.Blocks
import TxnStore.Proofs.Sequences.Steps

/-!
# Sequences on double words

The numbers of a sequence are words, but its cursor and its margin may lie beyond them, and so they
are computed as double words of 128 bits. Here each sum, difference and product of the sequence is
done on double words, with no result where it would not be one. There always is a result, and it is
the exact one: the cursor never lies more than a step beyond the words, and the margin is moved on
only where the cursor has reached it, so that what was reserved does not add up.
-/

namespace TxnStore

open TxnStore.Action

/-! ## Double words -/

/-- A number that was computed as a double word. -/
def doubleWord? (n : Int) : Option Int := if -2 ^ 127 ≤ n ∧ n < 2 ^ 127 then some n else none

theorem doubleWord?_eq {n : Int} (hlow : -2 ^ 127 ≤ n) (hhigh : n < 2 ^ 127) :
    doubleWord? n = some n :=
  if_pos ⟨hlow, hhigh⟩

/-- The product of two words. -/
theorem word_mul_bounds (a b : Int64) :
    -2 ^ 126 ≤ a.toInt * b.toInt ∧ a.toInt * b.toInt ≤ 2 ^ 126 := by
  obtain ⟨hleast, hgreatest⟩ := word_limits
  have hword : ∀ v : Int64, v.toInt.natAbs ≤ 2 ^ 63 := by
    intro v
    have hv := word_bounds v
    omega
  have hmul : (a.toInt * b.toInt).natAbs ≤ 2 ^ 63 * 2 ^ 63 := by
    rw [Int.natAbs_mul]
    exact Nat.mul_le_mul (hword a) (hword b)
  omega

/-- What follows the start, computed as a double word. -/
def SequenceDefinition.nextValue? (d : SequenceDefinition) : Option Int :=
  if d.exhausted then doubleWord? (d.start.toInt + d.increment.toInt) else some d.start.toInt

/-- Whether attributes are valid, computed on double words. -/
def attributesValid? (start min max increment : Int64) : Option Bool := do
  let size ← doubleWord? increment.toInt.natAbs
  let room ← doubleWord? (max.toInt - min.toInt)
  return min.toInt ≤ start.toInt ∧ start.toInt ≤ max.toInt ∧ min.toInt < max.toInt ∧
    increment.toInt ≠ 0 ∧ size < room

namespace Sequence

/-- The end of the numbers reserved, computed on double words. -/
def reserveFrom? (s : Sequence) (n : Int) : Option Int := do
  let reserved ← doubleWord? (s.increment.toInt * s.cacheSize.toInt)
  doubleWord? (n + reserved)

/-- The number handed out last, computed as a double word. -/
def current? (s : Sequence) : Option Int64 :=
  (doubleWord? (s.value - s.increment.toInt)).map saturate

/-- The margin once the next number is handed out, computed on double words. -/
def marginAfter? (s : Sequence) : Option Int :=
  if s.isUsedUp then s.reserveFrom? s.margin else some s.margin

/-- Draws a number, on double words. -/
def draw? (s : Sequence) : Option (Except StoreError Draw) := do
  -- The margin is moved on before the bound is looked at, whether or not it is kept then.
  let margin ← s.marginAfter?
  if s.isPastBound then
    if s.cycle then
      let margin ← s.reserveFrom? s.firstBound
      let value ← doubleWord? (s.firstBound + s.increment.toInt)
      return .ok
        { number := s.firstBound
          sequence := { s with value, margin, generation := s.generation + 1 }
          reservation := some ⟨margin, s.generation + 1⟩ }
    else return .error (.sequenceExhausted s.name)
  else
    let value ← doubleWord? (s.value + s.increment.toInt)
    return .ok
      { number := s.value
        sequence := { s with value, margin }
        reservation := if s.isUsedUp then some ⟨margin, s.generation⟩ else none }

end Sequence

/-- What a call makes of the sequence, on double words. Drawing and restarting alone compute. -/
def SequenceCall.moves? (s : Sequence) : SequenceCall → Option (Sequence × Option Reservation)
  | next =>
    s.draw?.map fun
      | .error _ => (s, none)
      | .ok d => (d.sequence, d.reservation)
  | restart start minValue maxValue increment =>
    let min := minValue.getD s.minValue
    let max := maxValue.getD s.maxValue
    let step := increment.getD s.increment
    match start.or (StoredSequence.wordOf? s.value) with
    | none => some (s, none)
    | some first =>
      (attributesValid? first min max step).map fun valid =>
        if valid then s.renewed (s.restarted first min max step) else (s, none)
  | setCycle cycle => some (s.renewed { s with cycle })
  | setCacheSize size => some (s.renewed { s with cacheSize := max size 1 })
  | setBelongsToTable belongs => some (s.renewed { s with belongsToTable := belongs })
  | releaseReserved | close =>
    some (if s.margin ≠ s.value then s.renewed { s with margin := s.value } else (s, none))

/-! ## What words alone compute -/

theorem SequenceDefinition.nextValue?_eq (d : SequenceDefinition) :
    d.nextValue? = some d.nextValue := by
  obtain ⟨hleast, hgreatest⟩ := word_limits
  have hstart := word_bounds d.start
  have hstep := word_bounds d.increment
  unfold nextValue? nextValue
  split
  · exact doubleWord?_eq (by omega) (by omega)
  · rfl

theorem attributesValid?_eq (start min max increment : Int64) :
    attributesValid? start min max increment =
      some (decide (AttributesValid start min max increment)) := by
  obtain ⟨hleast, hgreatest⟩ := word_limits
  have hmin := word_bounds min
  have hmax := word_bounds max
  have hstep := word_bounds increment
  rw [attributesValid?, doubleWord?_eq (by omega) (by omega), Option.bind_eq_bind,
    Option.bind_some, doubleWord?_eq (by omega) (by omega)]
  rfl

/-! ## Where the cursor and the margin lie -/

/-- The cursor lies at most a step beyond the words, and the margin lies as many steps ahead of it
as can be reserved at a time. -/
structure Sequence.IsNear (s : Sequence) : Prop where
  regular : s.IsRegular
  low : -2 ^ 64 ≤ s.value
  high : s.value ≤ 2 ^ 64
  reserved : ∃ k : Nat, (k : Int) ≤ greatestWord ∧ s.margin = s.value + s.increment.toInt * k

namespace Sequence

variable {s t : Sequence}

/-- What is reserved from a cursor on ends at a double word. -/
theorem reserveFrom?_eq {n : Int} (hlow : -2 ^ 64 ≤ n) (hhigh : n ≤ 2 ^ 64) :
    s.reserveFrom? n = some (s.reserveFrom n) := by
  have hmul := word_mul_bounds s.increment s.cacheSize
  rw [reserveFrom?, doubleWord?_eq (by omega) (by omega), Option.bind_eq_bind, Option.bind_some,
    doubleWord?_eq (by omega) (by omega)]
  rfl

namespace IsNear

/-- A margin at the cursor is near it. -/
theorem of_margin (hregular : s.IsRegular) (hlow : -2 ^ 64 ≤ s.value) (hhigh : s.value ≤ 2 ^ 64)
    (hmargin : s.margin = s.value) : s.IsNear :=
  ⟨hregular, hlow, hhigh, 0, by decide, by simp [hmargin]⟩

/-- Sequences that agree in what is computed with are near their margins together. -/
theorem congr (h : s.IsNear) (hregular : t.IsRegular) (hvalue : t.value = s.value)
    (hmargin : t.margin = s.margin) (hincrement : t.increment = s.increment) : t.IsNear := by
  obtain ⟨-, hlow, hhigh, hreserved⟩ := h
  rw [← hvalue] at hlow hhigh
  rw [← hvalue, ← hmargin, ← hincrement] at hreserved
  exact ⟨hregular, hlow, hhigh, hreserved⟩

theorem notes (h : s.IsNear) (hnotes : s.Notes t) : t.IsNear := by
  have hregular := hnotes.regular h.regular
  obtain ⟨_, _, _, rfl⟩ := hnotes
  exact h.congr hregular rfl rfl rfl

theorem margin_bounds (h : s.IsNear) : -2 ^ 127 ≤ s.margin ∧ s.margin < 2 ^ 127 := by
  obtain ⟨-, hlow, hhigh, k, hk, hmargin⟩ := h
  have hword : (Int64.ofInt k).toInt = k := by
    obtain ⟨hleast, hgreatest⟩ := word_limits
    exact Int64.toInt_ofInt_of_le (by omega) (by omega)
  have hmul := word_mul_bounds s.increment (Int64.ofInt k)
  rw [hword] at hmul
  omega

/-- Where all that was reserved is used up, the cursor has reached the margin. -/
theorem margin_eq (h : s.IsNear) (hused : s.isUsedUp = true) : s.margin = s.value := by
  obtain ⟨hregular, -, -, k, -, hmargin⟩ := h
  rw [isUsedUp_eq rfl hregular.moves hmargin, decide_eq_true_iff] at hused
  subst hused
  simpa using hmargin

/-! ## Drawing -/

/-- Reserving from a number leaves all but that number reserved once it is handed out. -/
theorem reserved_after (h : s.IsNear) (n : Int) :
    ∃ k : Nat, (k : Int) ≤ greatestWord ∧
      s.reserveFrom n = n + s.increment.toInt + s.increment.toInt * k := by
  have hcache := h.regular.cache
  have hword := word_bounds s.cacheSize
  refine ⟨(s.cacheSize.toInt - 1).toNat, by omega, ?_⟩
  rw [reserveFrom, Int.toNat_of_nonneg (by omega), Int.mul_sub, Int.mul_one]
  omega

theorem firstBound_bounds (h : s.IsNear) :
    leastWord ≤ s.firstBound ∧ s.firstBound ≤ greatestWord := by
  obtain ⟨hlow, hhigh⟩ := h.regular.firstBound_within
  have hmin := word_bounds s.minValue
  have hmax := word_bounds s.maxValue
  omega

/-- A number that can be drawn is a word. -/
theorem value_bounds (h : s.IsNear) (hpast : s.isPastBound = false) :
    leastWord ≤ s.value ∧ s.value ≤ greatestWord := by
  obtain ⟨hlow, hhigh⟩ := h.regular.value_within hpast
  have hmin := word_bounds s.minValue
  have hmax := word_bounds s.maxValue
  omega

theorem marginAfter?_eq (h : s.IsNear) : s.marginAfter? = some s.marginAfter := by
  unfold marginAfter? marginAfter
  split
  · next hused =>
    have hcursor := h.margin_eq hused
    exact reserveFrom?_eq (hcursor ▸ h.low) (hcursor ▸ h.high)
  · rfl

/-- Drawing computes on double words what it computes at all. -/
theorem draw?_eq (h : s.IsNear) : s.draw? = some s.draw := by
  obtain ⟨hleast, hgreatest⟩ := word_limits
  have hstep := word_bounds s.increment
  have hfirst := h.firstBound_bounds
  rw [draw?, h.marginAfter?_eq, Option.bind_eq_bind, Option.bind_some]
  -- Each result lies within what the checks allow, so that none of them fails.
  rcases s.draw_cases with ⟨hpast, hcycle, hdraw⟩ | ⟨hpast, hcycle, hdraw⟩ | ⟨hpast, hdraw⟩
  · rw [if_pos hpast, if_neg (by simp [hcycle]), hdraw]
    rfl
  · rw [if_pos hpast, if_pos hcycle, reserveFrom?_eq (by omega) (by omega),
      Option.bind_some, doubleWord?_eq (by omega) (by omega), hdraw]
    rfl
  · have hvalue := h.value_bounds hpast
    rw [if_neg (by simp [hpast]), doubleWord?_eq (by omega) (by omega), hdraw]
    rfl

theorem current?_eq (h : s.IsNear) : s.current? = some s.current := by
  obtain ⟨hleast, hgreatest⟩ := word_limits
  have hstep := word_bounds s.increment
  have hlow := h.low
  have hhigh := h.high
  rw [current?, doubleWord?_eq (by omega) (by omega)]
  rfl

/-- Behind the number at the cursor lie the steps reserved anew, or one less than before. -/
theorem marginAfter_reserved (h : s.IsNear) : ∃ k : Nat, (k : Int) ≤ greatestWord ∧
    s.marginAfter = s.value + s.increment.toInt + s.increment.toInt * k := by
  unfold marginAfter
  -- Either the old reserve is used up, or one number less is left of it.
  split
  · next hused =>
    rw [h.margin_eq hused]
    exact h.reserved_after s.value
  · next hused =>
    obtain ⟨k, hk, hmargin⟩ := h.reserved
    rw [isUsedUp_eq rfl h.regular.moves hmargin, decide_eq_true_iff] at hused
    obtain ⟨j, rfl⟩ := Nat.exists_eq_succ_of_ne_zero hused
    refine ⟨j, by omega, ?_⟩
    rw [hmargin, Int.natCast_succ, Int.mul_add]
    omega

/-- A drawn number leaves the margin near the cursor. -/
theorem of_draw (h : s.IsNear) {d : Draw} (hdraw : s.draw = .ok d) : d.sequence.IsNear := by
  obtain ⟨hleast, hgreatest⟩ := word_limits
  have hstep := word_bounds s.increment
  have hregular := (h.regular.of_draw hdraw).1
  -- In a new round the cursor is one step behind the first bound, otherwise behind a word.
  rcases s.draw_cases with ⟨-, -, hrun⟩ | ⟨-, -, hrun⟩ | ⟨hpast, hrun⟩
  · rw [hrun] at hdraw
    cases hdraw
  · rw [hrun] at hdraw
    obtain rfl := Except.ok.inj hdraw
    have hfirst := h.firstBound_bounds
    refine ⟨hregular, ?_, ?_, h.reserved_after s.firstBound⟩
    · show -2 ^ 64 ≤ s.firstBound + s.increment.toInt
      omega
    · show s.firstBound + s.increment.toInt ≤ 2 ^ 64
      omega
  · rw [hrun] at hdraw
    obtain rfl := Except.ok.inj hdraw
    have hvalue := h.value_bounds hpast
    refine ⟨hregular, ?_, ?_, h.marginAfter_reserved⟩
    · show -2 ^ 64 ≤ s.value + s.increment.toInt
      omega
    · show s.value + s.increment.toInt ≤ 2 ^ 64
      omega

/-! ## Calls and uses -/

/-- A call computes on double words what it computes at all. -/
theorem moves?_eq (h : s.IsNear) (c : SequenceCall) : c.moves? s = some (c.moves s) := by
  -- A draw and the checks of a restart compute; the other calls only set fields.
  cases c with
  | next =>
    rw [SequenceCall.moves?, h.draw?_eq, SequenceCall.moves]
    cases s.draw <;> rfl
  | restart start minValue maxValue increment =>
    simp only [SequenceCall.moves?, SequenceCall.moves]
    cases start.or (StoredSequence.wordOf? s.value) with
    | none => rfl
    | some first =>
      simp only [attributesValid?_eq, Option.map_some, decide_eq_true_eq]
  | _ => rfl

/-- A call leaves the margin near the cursor. -/
theorem moves (h : s.IsNear) (c : SequenceCall) : (c.moves s).1.IsNear := by
  obtain ⟨hleast, hgreatest⟩ := word_limits
  have hregular := h.regular
  cases c with
  | next =>
    rw [SequenceCall.moves]
    cases hdraw : s.draw with
    | error err => exact h
    | ok d => exact h.of_draw hdraw
  | restart start minValue maxValue increment =>
    simp only [SequenceCall.moves]
    cases start.or (StoredSequence.wordOf? s.value) with
    | none => exact h
    | some first =>
      dsimp only
      -- The cursor is set to a word.
      split
      · next hvalid =>
        have hfirst := word_bounds first
        have hrestarted := hregular.restarted hvalid
        refine of_margin ⟨hrestarted.moves, hrestarted.step, hrestarted.cache, hrestarted.begun⟩
          ?_ ?_ rfl
        · show -2 ^ 64 ≤ first.toInt
          omega
        · show first.toInt ≤ 2 ^ 64
          omega
      · exact h
  | setCycle cycle =>
    exact h.congr ⟨hregular.moves, hregular.step, hregular.cache, hregular.begun⟩ rfl rfl rfl
  | setCacheSize size =>
    exact h.congr ⟨hregular.moves, hregular.step, one_le_toInt_max size, hregular.begun⟩ rfl rfl rfl
  | setBelongsToTable belongs =>
    exact h.congr ⟨hregular.moves, hregular.step, hregular.cache, hregular.begun⟩ rfl rfl rfl
  -- The margin is set to the cursor, or it stays.
  | releaseReserved | close =>
    rw [SequenceCall.moves]
    split
    · exact of_margin ⟨hregular.moves, hregular.step, hregular.cache, hregular.begun⟩ h.low h.high
        rfl
    · exact h

end IsNear

/-- A new sequence has nothing reserved, and starts at a word or a step behind one. -/
theorem IsMade.isNear (h : s.IsMade) : s.IsNear := by
  obtain ⟨hleast, hgreatest⟩ := word_limits
  -- The number after a word is not far from the words.
  have hstart : ∀ d : SequenceDefinition, -2 ^ 64 ≤ d.nextValue ∧ d.nextValue ≤ 2 ^ 64 := by
    intro d
    have hword := word_bounds d.start
    have hstep := word_bounds d.increment
    unfold SequenceDefinition.nextValue
    split <;> omega
  -- However the sequence was made, it starts at such a number.
  obtain ⟨d, hvalue⟩ : ∃ d : SequenceDefinition, s.value = d.nextValue := by
    cases h with
    | created hcreate =>
      unfold create at hcreate
      split at hcreate
      · next d _ =>
        obtain rfl := Except.ok.inj hcreate
        exact ⟨d, rfl⟩
      · cases hcreate
    | @recovered d s hrecover =>
      obtain ⟨-, rfl⟩ := eq_of_recover hrecover
      exact ⟨d, rfl⟩
  exact .of_margin h.regular (hvalue ▸ (hstart d).1) (hvalue ▸ (hstart d).2) h.fresh.1

end Sequence

namespace StoredSequence

theorem notes_storing (p : StoredSequence) (r : Option Reservation) :
    p.sequence.Notes (p.storing r).sequence := by
  cases r with
  | none => exact .refl _
  | some r => exact notes_flushMargin r p

end StoredSequence

/-- A number that is handed out was drawn. -/
theorem StoredSequence.exists_draw_of_next {p p' : StoredSequence} {v : Int64}
    (hrun : next.runOn p = (.ok v, p')) :
    ∃ d, p.sequence.draw = .ok d ∧ saturate d.number = v := by
  rw [runOn_next] at hrun
  -- The draw has succeeded, or there would be no number.
  cases hdraw : p.sequence.draw with
  | error err =>
    rw [hdraw] at hrun
    cases hrun
  | ok d =>
    rw [hdraw] at hrun
    refine ⟨d, rfl, ?_⟩
    dsimp only at hrun
    -- Whether or not the margin had to be stored, the number is that of the draw.
    cases hreservation : d.reservation with
    | none =>
      rw [hreservation] at hrun
      exact Except.ok.inj (Prod.mk.inj hrun).1
    | some r =>
      rw [hreservation] at hrun
      dsimp only at hrun
      rcases hflush : (flushMargin r).runOn ⟨d.sequence, p.catalog⟩ with ⟨err | u, q⟩
      · rw [hflush] at hrun
        cases hrun
      · rw [hflush] at hrun
        exact Except.ok.inj (Prod.mk.inj hrun).1

/-- What a use makes of the sequence, apart from what it notes about stored margins. -/
def SequenceUse.moves (s : Sequence) : SequenceUse → Sequence
  | call c => (c.moves s).1
  | _ => s

/-- A margin that is named, alone or in a batch, is noted and leaves the sequence as it is. -/
theorem SequenceUse.notes_moves (u : SequenceUse) (p : StoredSequence) :
    (u.moves p.sequence).Notes (u.answers.runOn p).2.sequence := by
  -- A call moves the sequence; the other uses only note what was stored.
  cases u with
  | call c =>
    have hrun : ((call c).answers.runOn p).2 = (c.action.runOn p).2 := rfl
    rw [hrun, c.runOn_moves p.sequence p.catalog]
    exact StoredSequence.notes_storing _ _
  | flush target =>
    have hrun : ((flush target).answers.runOn p).2 =
        ((StoredSequence.flush target).numberless.runOn p).2 := rfl
    rw [hrun, runOn_numberless, StoredSequence.runOn_flush]
    exact StoredSequence.notes_flushMargin _ p
  | batch calls commits =>
    obtain ⟨answers, s, b, hrun, hnotes, -⟩ :=
      BatchCall.runOn_attemptAll calls p.sequence ⟨p.catalog, false⟩
    cases commits with
    | false =>
      rw [runOn_batch_dropped hrun]
      exact hnotes
    | true =>
      rw [runOn_batch_committed hrun]
      exact hnotes

/-- What each use keeps holds after any number of them. -/
theorem StoredSequence.isNear_afterUses {p : StoredSequence} (h : p.sequence.IsNear)
    (uses : List (CatalogFaults × SequenceUse)) : (p.afterUses uses).sequence.IsNear := by
  induction uses generalizing p with
  | nil => exact h
  | cons u rest ih =>
    refine ih (Sequence.IsNear.notes ?_ (u.2.notes_moves (p.withFaults u.1)))
    cases u.2 with
    | call c => exact h.moves c
    | flush target => exact h
    | batch calls commits => exact h

/-! ## Main result -/

/-- However a sequence is used, and whichever calls of its catalog fail, all that it computes are
double words: the cursor lies at most a step beyond the words, the margin is a double word, each call
makes of the sequence on double words what it makes of it, and so does the number handed out last. A
number that is handed out is the word that was drawn. The start of a definition and the check of
attributes need no more than double words either. -/
theorem StoredSequence.computes_on_double_words {s : Sequence} (hmade : s.IsMade)
    (catalog : Catalog) (uses : List (CatalogFaults × SequenceUse)) (faults : CatalogFaults)
    {p : StoredSequence} (hp : ((mk s catalog).afterUses uses).withFaults faults = p) :
    (-2 ^ 64 ≤ p.sequence.value ∧ p.sequence.value ≤ 2 ^ 64) ∧
      (-2 ^ 127 ≤ p.sequence.margin ∧ p.sequence.margin < 2 ^ 127) ∧
      p.sequence.current? = some p.sequence.current ∧
      (∀ c : SequenceCall, ∃ t r, c.moves? p.sequence = some (t, r) ∧
        (c.action.runOn p).2 = storing ⟨t, p.catalog⟩ r) ∧
      (∀ v p', next.runOn p = (.ok v, p') → ∃ d, p.sequence.draw? = some (.ok d) ∧
        v.toInt = d.number) ∧
      (∀ d : SequenceDefinition, d.nextValue? = some d.nextValue) ∧
      ∀ start min max increment, attributesValid? start min max increment =
        some (decide (AttributesValid start min max increment)) := by
  obtain ⟨hleast, hgreatest⟩ := word_limits
  have hnear : p.sequence.IsNear := by
    rw [← hp]
    exact isNear_afterUses (p := ⟨s, catalog⟩) hmade.isNear uses
  -- The range of the cursor and the margin is what makes every check succeed.
  refine ⟨⟨hnear.low, hnear.high⟩, hnear.margin_bounds, hnear.current?_eq, fun c => ?_,
    fun v p' hrun => ?_, SequenceDefinition.nextValue?_eq, attributesValid?_eq⟩
  · exact ⟨_, _, hnear.moves?_eq c, c.runOn_moves p.sequence p.catalog⟩
  · obtain ⟨d, hdraw, rfl⟩ := exists_draw_of_next hrun
    obtain ⟨-, hlow, hhigh⟩ := hnear.regular.of_draw hdraw
    have hmin := word_bounds p.sequence.minValue
    have hmax := word_bounds p.sequence.maxValue
    exact ⟨d, by rw [hnear.draw?_eq, hdraw], toInt_saturate_of_word (by omega) (by omega)⟩

/-- A sequence that is taken up a step before the least word and reserves as much as can be. It
starts over, and goes on by the largest step down while its catalog fails. -/
theorem StoredSequence.computes_on_double_words_of_largest_step :
    let d : SequenceDefinition := ⟨⟨1⟩, "rows", Int64.minValue, Int64.minValue, Int64.minValue,
      Int64.maxValue, Int64.maxValue, true, false, true⟩
    let works : CatalogFaults := ⟨false, false, false⟩
    let fails : CatalogFaults := ⟨false, false, true⟩
    ∃ s, Sequence.recover d = .ok s ∧ s.IsMade ∧ s.value = -2 ^ 64 ∧
      ∃ p, ((mk s .inMemory).afterUses [(fails, .call .next)]).withFaults works = p ∧
        p.sequence.margin = greatestWord - 2 ^ 63 * greatestWord ∧
        -2 ^ 127 ≤ p.sequence.margin ∧ p.sequence.current? = some p.sequence.current ∧
        ∃ v p', next.runOn p = (.ok v, p') ∧ v = -1 ∧ ∃ d, p.sequence.draw? = some (.ok d) ∧
          v.toInt = d.number := by
  intro d works fails
  let s : Sequence := { Sequence.ofDefinition d with flushedMargin := some d.nextValue }
  have hrecover : Sequence.recover d = .ok s := if_pos (by decide +kernel)
  let p := ((mk s .inMemory).afterUses [(fails, .call .next)]).withFaults works
  have hmargin : p.sequence.margin = greatestWord - 2 ^ 63 * greatestWord := by decide +kernel
  have hvalue : (next.runOn p).1.toOption = some (-1) := by decide +kernel
  have hp : ((mk s .inMemory).afterUses [(fails, .call .next)]).withFaults works = p := rfl
  clear_value p
  obtain ⟨-, ⟨hlow, -⟩, hcurrent, -, hnumber, -⟩ :=
    computes_on_double_words (.recovered hrecover) .inMemory _ works hp
  refine ⟨s, hrecover, .recovered hrecover, by decide +kernel, p, hp, hmargin, hlow, hcurrent, ?_⟩
  rcases hrun : next.runOn p with ⟨err | v, p'⟩
  · rw [hrun] at hvalue
    cases hvalue
  · rw [hrun] at hvalue
    exact ⟨v, p', rfl, Option.some.inj hvalue, hnumber v p' hrun⟩

end TxnStore
