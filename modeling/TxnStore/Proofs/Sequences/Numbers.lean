import Mathlib.Data.List.Nodup
import TxnStore.Proofs.Sequences.CleanCloses

/-!
# The numbers that a sequence hands out

On a catalog that does not fail, the numbers of a new sequence follow from its definition alone.
They go from the start in equal steps up to the last bound. There the sequence is exhausted, or it
goes on in rounds, each of which has the same numbers in the same order. How many numbers are
reserved at a time has no part in it.
-/

namespace TxnStore

open TxnStore.Action

namespace SequenceDefinition

/-- Whether a number lies within the bounds. -/
def Spans (d : SequenceDefinition) (n : Int) : Prop := d.minValue.toInt ≤ n ∧ n ≤ d.maxValue.toInt

instance (d : SequenceDefinition) (n : Int) : Decidable (d.Spans n) := by
  unfold Spans
  infer_instance

/-- The number that lies a number of steps behind the start. -/
def numberAt (d : SequenceDefinition) (k : Nat) : Int := d.start.toInt + d.increment.toInt * k

/-- How many numbers a round has. -/
def roundLength (d : SequenceDefinition) : Nat :=
  ((d.maxValue.toInt - d.minValue.toInt) / d.increment.toInt.natAbs).toNat + 1

/-- The numbers of a round: from the first bound in equal steps. -/
def round (d : SequenceDefinition) : List Int :=
  (List.range d.roundLength).map fun (i : Nat) =>
    (if 0 < d.increment.toInt then d.minValue else d.maxValue).toInt + d.increment.toInt * i

end SequenceDefinition

namespace Sequence

variable {s : Sequence}

/-! ## Passes -/

/-- The sequence with its cursor at a given number. -/
def movedTo (s : Sequence) (n : Int) : Sequence := { s with value := n }

/-- How many numbers lie between the cursor and the last bound, the one at the cursor among them. -/
def room (s : Sequence) : Nat :=
  ((along s.increment (if 0 < s.increment.toInt then s.maxValue else s.minValue).toInt -
    along s.increment s.value) / along s.increment s.increment.toInt).toNat + 1

theorem not_within_of_isPastBound (hpast : s.isPastBound = true) :
    ¬(s.minValue.toInt ≤ s.value ∧ s.value ≤ s.maxValue.toInt) := by
  unfold isPastBound at hpast
  split at hpast
  · have hbehind := of_decide_eq_true hpast
    omega
  · have hbehind := of_decide_eq_true hpast
    omega

/-- The numbers of a pass are those that come before the room is used up. -/
theorem isPastBound_movedTo (hmoves : s.increment.toInt ≠ 0) (hpast : s.isPastBound = false)
    (k : Nat) :
    (s.movedTo (s.value + s.increment.toInt * k)).isPastBound = true ↔ s.room ≤ k := by
  -- Being past the bound compares two words, which the quotient of their distance decides.
  have hpos := along_step_pos hmoves
  have hnear := mt s.isPastBound_iff.mpr (by simp [hpast])
  rw [isPastBound_iff]
  show along s.increment (if 0 < s.increment.toInt then s.maxValue else s.minValue).toInt <
    along s.increment (s.value + s.increment.toInt * k) ↔ _
  rw [along_steps, room]
  -- Only the distances matter from here on.
  generalize along s.increment (if 0 < s.increment.toInt then s.maxValue else s.minValue).toInt =
    last at hnear ⊢
  generalize along s.increment s.increment.toInt = step at hpos ⊢
  have hdiv := Int.ediv_lt_iff_lt_mul hpos (a := last - along s.increment s.value) (b := k)
  have hroom := Int.ediv_nonneg (a := last - along s.increment s.value) (b := step)
    (by omega) (by omega)
  rw [Int.mul_comm] at hdiv
  omega

theorem IsRegular.movedTo (h : s.IsRegular) (k : Nat) :
    (s.movedTo (s.value + s.increment.toInt * k)).IsRegular := by
  have hahead := @along_steps s.increment s.value k
  have hsteps := Int.mul_nonneg (Int.le_of_lt (along_step_pos h.moves)) (Int.natCast_nonneg k)
  have hbegun := h.begun
  refine ⟨h.moves, h.step, h.cache, ?_⟩
  show along s.increment s.firstBound ≤ along s.increment (s.value + s.increment.toInt * k)
  omega

theorem IsRegular.movedTo_firstBound (h : s.IsRegular) : (s.movedTo s.firstBound).IsRegular :=
  ⟨h.moves, h.step, h.cache, Int.le_refl _⟩

/-- A sequence that stands at its first bound is not past the last one. -/
theorem IsRegular.not_isPastBound_firstBound (h : s.IsRegular) :
    (s.movedTo s.firstBound).isPastBound = false := by
  obtain ⟨hlow, hhigh⟩ := h.firstBound_within
  unfold isPastBound
  split
  · exact decide_eq_false (Int.not_lt.mpr hhigh)
  · exact decide_eq_false (Int.not_lt.mpr hlow)

/-- A pass that begins at the first bound is a round. -/
theorem room_of_firstBound (s : Sequence) :
    (s.movedTo s.firstBound).room =
      ((s.maxValue.toInt - s.minValue.toInt) / s.increment.toInt.natAbs).toNat + 1 := by
  rw [room]
  show ((along s.increment (if 0 < s.increment.toInt then s.maxValue else s.minValue).toInt -
    along s.increment s.firstBound) / along s.increment s.increment.toInt).toNat + 1 = _
  rw [firstBound_eq]
  -- The distance between the bounds is the same in both directions.
  unfold along
  by_cases hup : 0 < s.increment.toInt
  · simp only [if_pos hup, show (s.increment.toInt.natAbs : Int) = s.increment.toInt by omega]
  · simp only [if_neg hup, show (s.increment.toInt.natAbs : Int) = -s.increment.toInt by omega]
    congr 3
    omega

end Sequence

namespace StoredSequence

variable {p q : StoredSequence}

/-! ## Answers -/

/-- What the call answers that follows a number of calls. -/
def answerAt (p : StoredSequence) (k : Nat) : Except StoreError Int64 :=
  (next.runOn ((draws k).runOn p).2).1

theorem answerAt_succ (p : StoredSequence) (k : Nat) :
    p.answerAt (k + 1) = answerAt (next.runOn p).2 k := by
  rw [answerAt, draws, runOn_bind, runOn_attempt]
  simp only [runOn_bind]
  rw [answerAt]
  rcases (draws k).runOn (next.runOn p).2 with ⟨err | rest, p'⟩
  · rfl
  · rfl

/-- Sequences that answer alike give the same answer to each call. -/
theorem answerAt_congr (k : Nat) {p q : StoredSequence} (hp : p.catalog.IsReady)
    (hq : q.catalog.IsReady) (h : p.sequence.Alike q.sequence) : p.answerAt k = q.answerAt k := by
  induction k generalizing p q with
  | zero =>
    obtain ⟨answer, p', q', hrun, hrun', -⟩ := next_congr hp hq h
    show (next.runOn p).1 = (next.runOn q).1
    rw [hrun, hrun']
  | succ k ih =>
    obtain ⟨answer, p', q', hrun, hrun', hp', hq', hrest⟩ := next_congr hp hq h
    rw [answerAt_succ, answerAt_succ, hrun, hrun', ih hp' hq' hrest]

/-- The answers follow from what is drawn. -/
theorem answerAt_of_draw (hready : p.catalog.IsReady) {d : Draw} (hdraw : p.sequence.draw = .ok d) :
    p.answerAt 0 = .ok (saturate d.number) ∧
      ∀ k, p.answerAt (k + 1) = answerAt ⟨d.sequence, p.catalog⟩ k := by
  obtain ⟨p', hrun, hready', hrest⟩ := next_of_ready hready
  rw [hdraw] at hrun hrest
  refine ⟨congrArg Prod.fst hrun, fun k => ?_⟩
  rw [answerAt_succ, hrun]
  exact (answerAt_congr k (p := ⟨d.sequence, p.catalog⟩) hready hready' (hrest d rfl)).symm

/-- The sequence on its catalog with its cursor at a given number. -/
def movedTo (p : StoredSequence) (n : Int) : StoredSequence := ⟨p.sequence.movedTo n, p.catalog⟩

/-- Going on from the cursor, a sequence hands out the number there and then those behind it. -/
theorem answerAt_of_not_isPastBound (hready : p.catalog.IsReady)
    (hpast : p.sequence.isPastBound = false) :
    p.answerAt 0 = .ok (saturate p.sequence.value) ∧
      ∀ k, p.answerAt (k + 1) =
        (p.movedTo (p.sequence.value + p.sequence.increment.toInt)).answerAt k := by
  rcases p.sequence.draw_cases with ⟨hpast', -⟩ | ⟨hpast', -⟩ | ⟨-, hdraw⟩
  · simp [hpast] at hpast'
  · simp [hpast] at hpast'
  · obtain ⟨hfirst, hrest⟩ := answerAt_of_draw hready hdraw
    refine ⟨hfirst, fun k => (hrest k).trans ?_⟩
    exact answerAt_congr k hready hready ⟨rfl, rfl, rfl, rfl, rfl, .refl _ _⟩

/-- As long as the cursor is not past the last bound, each call moves it on by one step. -/
theorem answerAt_ahead (hready : p.catalog.IsReady) (k m : Nat)
    (hpast : ∀ i < m, (p.sequence.movedTo
      (p.sequence.value + p.sequence.increment.toInt * i)).isPastBound = false) :
    p.answerAt (m + k) =
      (p.movedTo (p.sequence.value + p.sequence.increment.toInt * m)).answerAt k := by
  -- By induction on the numbers that lie ahead, each of which moves the cursor by one step.
  induction m generalizing p with
  | zero =>
    rw [Nat.zero_add, show p.sequence.value + p.sequence.increment.toInt * (0 : Nat) =
      p.sequence.value by simp]
    rfl
  | succ m ih =>
    have hhere := hpast 0 (Nat.succ_pos m)
    rw [show p.sequence.value + p.sequence.increment.toInt * (0 : Nat) = p.sequence.value by
      simp] at hhere
    -- The cursor after one step and `i` more is the cursor after `i + 1` steps.
    have hnext : ∀ i : Nat, p.sequence.value + p.sequence.increment.toInt +
        p.sequence.increment.toInt * i =
          p.sequence.value + p.sequence.increment.toInt * (i + 1 : Nat) := by
      intro i
      rw [Int.natCast_succ, Int.mul_add]
      omega
    rw [show m + 1 + k = m + k + 1 by omega, (answerAt_of_not_isPastBound hready hhere).2]
    refine (ih (p := p.movedTo (p.sequence.value + p.sequence.increment.toInt)) hready
      fun i hi => ?_).trans ?_
    · show (p.sequence.movedTo (p.sequence.value + p.sequence.increment.toInt +
        p.sequence.increment.toInt * i)).isPastBound = false
      rw [hnext]
      exact hpast (i + 1) (by omega)
    · show (p.movedTo (p.sequence.value + p.sequence.increment.toInt +
        p.sequence.increment.toInt * m)).answerAt k = _
      rw [hnext]

/-- An exhausted sequence stays exhausted. -/
theorem answerAt_exhausted (hcycle : p.sequence.cycle = false)
    (hpast : p.sequence.isPastBound = true) (k : Nat) :
    p.answerAt k = .error (.sequenceExhausted p.sequence.name) := by
  have hrun : next.runOn p = (.error (.sequenceExhausted p.sequence.name), p) := by
    rw [runOn_next, Sequence.draw_of_isPastBound hcycle hpast]
  induction k with
  | zero => exact congrArg Prod.fst hrun
  | succ k ih => rw [answerAt_succ, hrun, ih]

/-- A sequence that starts over answers as if its cursor stood at the first bound. -/
theorem answerAt_wrapped (hready : p.catalog.IsReady) (hregular : p.sequence.IsRegular)
    (hcycle : p.sequence.cycle = true) (hpast : p.sequence.isPastBound = true) (k : Nat) :
    p.answerAt k = (p.movedTo p.sequence.firstBound).answerAt k := by
  -- Both sides hand out the first bound, and they are alike from there on.
  obtain ⟨hfirst, hrest⟩ := answerAt_of_not_isPastBound
    (p := p.movedTo p.sequence.firstBound) hready hregular.not_isPastBound_firstBound
  rcases p.sequence.draw_cases with ⟨-, hcycle', -⟩ | ⟨-, -, hdraw⟩ | ⟨hpast', -⟩
  · simp [hcycle] at hcycle'
  · obtain ⟨hfirst', hrest'⟩ := answerAt_of_draw hready hdraw
    cases k with
    | zero => exact hfirst'.trans hfirst.symm
    | succ k =>
      rw [hrest', hrest]
      exact answerAt_congr k hready hready ⟨rfl, rfl, rfl, rfl, rfl, .refl _ _⟩
  · simp [hpast] at hpast'

/-! ## Rounds -/

/-- The numbers of a pass are handed out one after the other, and lie within the bounds. -/
theorem answerAt_pass (hready : p.catalog.IsReady) (hregular : p.sequence.IsRegular)
    (hpast : p.sequence.isPastBound = false) {k : Nat} (hk : k < p.sequence.room) :
    let n := p.sequence.value + p.sequence.increment.toInt * k
    (p.answerAt k).map Int64.toInt = .ok n ∧
      p.sequence.minValue.toInt ≤ n ∧ n ≤ p.sequence.maxValue.toInt := by
  intro n
  -- No number before the `k`-th lies past the bound.
  have hbefore : ∀ i ≤ k, (p.sequence.movedTo
      (p.sequence.value + p.sequence.increment.toInt * i)).isPastBound = false := by
    intro i hi
    rw [← Bool.not_eq_true, Sequence.isPastBound_movedTo hregular.moves hpast]
    omega
  have hahead := answerAt_ahead hready 0 k fun i hi => hbefore i (Nat.le_of_lt hi)
  obtain ⟨hfirst, -⟩ := answerAt_of_not_isPastBound (p := p.movedTo n) hready
    (hbefore k (Nat.le_refl k))
  obtain ⟨hlow, hhigh⟩ : p.sequence.minValue.toInt ≤ n ∧ n ≤ p.sequence.maxValue.toInt :=
    (hregular.movedTo k).value_within (hbefore k (Nat.le_refl k))
  have hmin := word_bounds p.sequence.minValue
  have hmax := word_bounds p.sequence.maxValue
  -- What lies between the bounds is a word.
  have hword : (saturate n).toInt = n := toInt_saturate_of_word (by omega) (by omega)
  refine ⟨?_, hlow, hhigh⟩
  rw [← Nat.add_zero k, hahead, hfirst]
  exact congrArg Except.ok hword

/-- Behind the numbers of a pass the cursor lies past the last bound. -/
theorem answerAt_behind_pass (hready : p.catalog.IsReady) (hregular : p.sequence.IsRegular)
    (hpast : p.sequence.isPastBound = false) :
    let q := p.movedTo (p.sequence.value + p.sequence.increment.toInt * p.sequence.room)
    q.sequence.isPastBound = true ∧ ∀ k, p.answerAt (p.sequence.room + k) = q.answerAt k := by
  intro q
  refine ⟨(Sequence.isPastBound_movedTo hregular.moves hpast _).mpr (Nat.le_refl _), fun k =>
    answerAt_ahead hready k _ fun i hi => ?_⟩
  rw [← Bool.not_eq_true, Sequence.isPastBound_movedTo hregular.moves hpast]
  omega

/-- A sequence that starts over goes on from its first bound after each pass. -/
theorem answerAt_next_pass (hready : p.catalog.IsReady) (hregular : p.sequence.IsRegular)
    (hcycle : p.sequence.cycle = true) (hpast : p.sequence.isPastBound = false) (k : Nat) :
    p.answerAt (p.sequence.room + k) = (p.movedTo p.sequence.firstBound).answerAt k := by
  obtain ⟨hbehind, hrest⟩ := answerAt_behind_pass hready hregular hpast
  let n := p.sequence.value + p.sequence.increment.toInt * p.sequence.room
  exact (hrest k).trans
    (answerAt_wrapped (p := p.movedTo n) hready (hregular.movedTo _) hcycle hbehind k)

/-- Each round is answered as the first one. -/
theorem answerAt_round (hready : p.catalog.IsReady) (hregular : p.sequence.IsRegular)
    (hcycle : p.sequence.cycle = true) (r i : Nat) :
    (p.movedTo p.sequence.firstBound).answerAt
        ((p.movedTo p.sequence.firstBound).sequence.room * r + i) =
      (p.movedTo p.sequence.firstBound).answerAt i := by
  induction r with
  | zero => rw [Nat.mul_zero, Nat.zero_add]
  | succ r ih =>
    rw [Nat.mul_succ, Nat.add_right_comm, Nat.add_comm _ (Sequence.room _), ← ih]
    exact answerAt_next_pass (p := p.movedTo p.sequence.firstBound) hready
      hregular.movedTo_firstBound hcycle hregular.not_isPastBound_firstBound _

end StoredSequence

/-! ## Main result -/

/-- Other options about the numbers reserved at a time change nothing else. -/
theorem SequenceOptions.definition_of_cacheSize {options : SequenceOptions} {id : ObjectId}
    {name : String} {defaultCache : Int64} {d : SequenceDefinition}
    (h : options.definition id name defaultCache = .ok d) (cacheSize : Option Int64)
    (defaultCache' : Int64) :
    { options with cacheSize }.definition id name defaultCache' =
      .ok { d with cacheSize := max (cacheSize.getD defaultCache') 1 } := by
  simp only [definition] at h ⊢
  generalize options.start.getD _ = start at h ⊢
  split at h
  · next hvalid =>
    obtain rfl := Except.ok.inj h
    rw [if_pos hvalid]
  · cases h

/-- A round has no number twice. -/
theorem SequenceDefinition.round_nodup {d : SequenceDefinition} (hmoves : d.increment.toInt ≠ 0) :
    d.round.Nodup := by
  refine List.nodup_range.map fun i j hij => ?_
  exact Int.ofNat_inj.mp (Int.eq_of_mul_eq_mul_left hmoves (Int.add_left_cancel hij))

namespace StoredSequence

/-- The rounds of a sequence that starts over are those of its definition. -/
theorem answerAt_rounds {p : StoredSequence} (hready : p.catalog.IsReady)
    (hregular : p.sequence.IsRegular) (hcycle : p.sequence.cycle = true)
    (hpast : p.sequence.isPastBound = false) :
    let d := p.sequence.definition
    (∀ n ∈ d.round, d.Spans n) ∧ ∀ r, (List.range d.roundLength).map (fun i =>
      (p.answerAt (p.sequence.room + (d.roundLength * r + i))).map Int64.toInt) =
        d.round.map .ok := by
  intro d
  -- The first pass is over, and `q` stands at the first bound.
  let q := p.movedTo p.sequence.firstBound
  have hlength : q.sequence.room = d.roundLength := p.sequence.room_of_firstBound
  have hnumber : ∀ i : Nat, q.sequence.value + q.sequence.increment.toInt * i =
      (if 0 < d.increment.toInt then d.minValue else d.maxValue).toInt +
        d.increment.toInt * i := by
    intro i
    exact congrArg (· + _) p.sequence.firstBound_eq
  have hpass : ∀ i < d.roundLength, _ := fun i hi =>
    answerAt_pass (p := q) (k := i) hready hregular.movedTo_firstBound
      hregular.not_isPastBound_firstBound (hlength ▸ hi)
  simp only [hnumber] at hpass
  constructor
  · intro n hn
    obtain ⟨i, hi, rfl⟩ := List.mem_map.mp hn
    exact (hpass i (List.mem_range.mp hi)).2
  · -- Each later round is the pass from the first bound again.
    intro r
    rw [SequenceDefinition.round, List.map_map]
    refine List.map_congr_left fun i hi => ?_
    rw [answerAt_next_pass hready hregular hcycle hpast, ← hlength,
      answerAt_round hready hregular hcycle]
    exact (hpass i (List.mem_range.mp hi)).1

/-- On a catalog that does not fail, a new sequence answers each call as its definition says. One
that does not start over hands out the start and the numbers behind it as long as they lie within
the bounds, and is exhausted from then on. One that starts over hands out the same numbers first,
and then goes through its rounds for ever, each with the same numbers in the same order. The numbers
reserved at a time change no answer. -/
theorem answers_of_definition {options : SequenceOptions} {id : ObjectId} {name : String}
    {defaultCache : Int64} {d : SequenceDefinition}
    (hdefinition : options.definition id name defaultCache = .ok d) {catalog : Catalog}
    (hready : catalog.IsReady) :
    ∃ s, Sequence.create id name options defaultCache = .ok s ∧
      (options.cycle = false → ∀ k, (answerAt ⟨s, catalog⟩ k).map Int64.toInt =
        if d.Spans (d.numberAt k) then .ok (d.numberAt k) else .error (.sequenceExhausted name)) ∧
      (options.cycle = true → d.round.Nodup ∧ (∀ n ∈ d.round, d.Spans n) ∧ ∃ pass, 0 < pass ∧
        (∀ k < pass, d.Spans (d.numberAt k) ∧
          (answerAt ⟨s, catalog⟩ k).map Int64.toInt = .ok (d.numberAt k)) ∧
        ¬d.Spans (d.numberAt pass) ∧
        ∀ r, (List.range d.roundLength).map (fun i =>
            (answerAt ⟨s, catalog⟩ (pass + (d.roundLength * r + i))).map Int64.toInt) =
          d.round.map .ok) ∧
      ∀ cacheSize defaultCache', ∃ t,
        Sequence.create id name { options with cacheSize } defaultCache' = .ok t ∧
          ∀ k, answerAt ⟨t, catalog⟩ k = answerAt ⟨s, catalog⟩ k := by
  obtain ⟨hvalid, hexhausted, hcycle⟩ := SequenceOptions.valid_of_definition hdefinition
  let s : Sequence := { Sequence.ofDefinition d with temporary := options.temporary }
  -- What is stated as valid is what creation accepts.
  have hcreate : Sequence.create id name options defaultCache = .ok s := by
    rw [Sequence.create, hdefinition]
  have hregular : s.IsRegular := (Sequence.IsMade.created hcreate).regular
  have hvalue : s.value = d.start.toInt := by
    show d.nextValue = _
    simp [SequenceDefinition.nextValue, hexhausted]
  -- The start lies between the bounds.
  have hpast : s.isPastBound = false := by
    rw [← Bool.not_eq_true]
    intro hpast
    refine Sequence.not_within_of_isPastBound hpast ?_
    rw [hvalue]
    exact ⟨hvalid.1, hvalid.2.1⟩
  have hnumber : ∀ k : Nat, s.value + s.increment.toInt * k = d.numberAt k := by
    intro k
    rw [hvalue]
    rfl
  -- The first pass goes from the start to the last bound, and all later ones are rounds.
  have hpass : ∀ k < s.room, d.Spans (d.numberAt k) ∧
      (answerAt ⟨s, catalog⟩ k).map Int64.toInt = .ok (d.numberAt k) := by
    intro k hk
    obtain ⟨hanswer, hwithin⟩ := answerAt_pass (p := ⟨s, catalog⟩) hready hregular hpast hk
    simp only [hnumber] at hanswer hwithin
    exact ⟨hwithin, hanswer⟩
  have hbeyond : ∀ k, s.room ≤ k → ¬d.Spans (d.numberAt k) := by
    intro k hk
    rw [← hnumber]
    exact Sequence.not_within_of_isPastBound
      ((Sequence.isPastBound_movedTo hregular.moves hpast k).mpr hk)
  refine ⟨s, hcreate, fun hbounded k => ?_, fun hrounds => ?_, fun cacheSize defaultCache' => ?_⟩
  · -- Without cycling, a number is within the first pass or behind it.
    rcases Nat.lt_or_ge k s.room with hk | hk
    · obtain ⟨hspans, hanswer⟩ := hpass k hk
      rw [if_pos hspans, hanswer]
    · obtain ⟨j, rfl⟩ := Nat.exists_eq_add_of_le hk
      obtain ⟨hbehind, hrest⟩ := answerAt_behind_pass (p := ⟨s, catalog⟩) hready hregular hpast
      have hexhausted := answerAt_exhausted (hcycle.trans hbounded) hbehind j
      rw [if_neg (hbeyond _ hk), hrest j, hexhausted]
      exact congrArg _ (congrArg _ (SequenceOptions.name_of_definition hdefinition))
  · -- With cycling, the first pass is followed by rounds of equal length.
    obtain ⟨hspans, hround⟩ := answerAt_rounds (p := ⟨s, catalog⟩) hready hregular
      (hcycle.trans hrounds) hpast
    exact ⟨SequenceDefinition.round_nodup hregular.moves, hspans, s.room, Nat.succ_pos _, hpass,
      hbeyond _ (Nat.le_refl _), hround⟩
  · -- Two sequences that differ in what they reserve alone are alike.
    refine ⟨_, by rw [Sequence.create, SequenceOptions.definition_of_cacheSize hdefinition], ?_⟩
    exact fun k => answerAt_congr k hready hready ⟨rfl, rfl, rfl, rfl, rfl, .refl _ _⟩

/-- Two sequences that go down in threes to the least word. The one has two numbers and is
exhausted; the other one goes on from its upper bound in rounds of three. -/
theorem answers_of_definition_at_least_word :
    let options : Bool → SequenceOptions := fun cycle =>
      ⟨some (Int64.minValue + 5), some (-3), some 2, some Int64.minValue,
        some (Int64.minValue + 7), cycle, false, false⟩
    (∃ d s, (options false).definition ⟨1⟩ "rows" 32 = .ok d ∧ Catalog.inMemory.IsReady ∧
      Sequence.create ⟨1⟩ "rows" (options false) 32 = .ok s ∧
      (answerAt ⟨s, .inMemory⟩ 1).map Int64.toInt = .ok (leastWord + 2) ∧
      (answerAt ⟨s, .inMemory⟩ 2).map Int64.toInt = .error (.sequenceExhausted "rows")) ∧
    ∃ d s, (options true).definition ⟨1⟩ "rows" 32 = .ok d ∧ Catalog.inMemory.IsReady ∧
      Sequence.create ⟨1⟩ "rows" (options true) 32 = .ok s ∧
      (answerAt ⟨s, .inMemory⟩ 1).map Int64.toInt = .ok (leastWord + 2) ∧
      ∀ r, (List.range 3).map (fun i =>
          (answerAt ⟨s, .inMemory⟩ (2 + (3 * r + i))).map Int64.toInt) =
        [.ok (leastWord + 7), .ok (leastWord + 4), .ok (leastWord + 1)] := by
  intro options
  let d : Bool → SequenceDefinition := fun cycle => ⟨⟨1⟩, "rows", Int64.minValue + 5, -3,
    Int64.minValue, Int64.minValue + 7, 2, cycle, false, false⟩
  -- Both kinds of sequence are accepted, with the attributes written out.
  have hdefinition : ∀ cycle, (options cycle).definition ⟨1⟩ "rows" 32 = .ok (d cycle) := by
    intro cycle
    cases cycle <;> decide +kernel
  have hready := Catalog.isReady_inMemory
  constructor
  · obtain ⟨s, hcreate, hanswers, -⟩ := answers_of_definition (hdefinition false) hready
    refine ⟨d false, s, hdefinition false, hready, hcreate, ?_, ?_⟩
    · rw [hanswers rfl 1]
      decide +kernel
    · rw [hanswers rfl 2]
      decide +kernel
  · obtain ⟨s, hcreate, -, hrounds, -⟩ := answers_of_definition (hdefinition true) hready
    obtain ⟨-, -, pass, hsome, hpass, hend, hround⟩ := hrounds rfl
    -- The second number lies within the bounds, and the third one would not.
    have hsecond : (d true).Spans ((d true).numberAt 1) := by decide +kernel
    have hthird : ¬(d true).Spans ((d true).numberAt 2) := by decide +kernel
    have htwo : pass = 2 := by
      rcases Nat.lt_trichotomy pass 2 with hless | heq | hmore
      · obtain rfl : pass = 1 := by omega
        exact absurd hsecond hend
      · exact heq
      · exact absurd (hpass 2 hmore).1 hthird
    subst htwo
    have hlength : (d true).roundLength = 3 := by decide +kernel
    have hnumbers : (d true).round = [leastWord + 7, leastWord + 4, leastWord + 1] := by
      decide +kernel
    rw [hlength, hnumbers] at hround
    refine ⟨d true, s, hdefinition true, hready, hcreate, ?_, hround⟩
    rw [(hpass 1 (by omega)).2]
    decide +kernel

end StoredSequence

end TxnStore
