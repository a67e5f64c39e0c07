import TxnStore.Proofs.Sequences.Incarnations
import TxnStore.Proofs.Sequences.Kept
import TxnStore.Proofs.Sequences.Refusals

/-!
# Sequences that are closed and taken up again

A sequence that is closed has nothing reserved, and its entry starts at the cursor. What is taken up
from there need not be the same sequence: a cursor beyond the words comes back as another one, and
the margins stored before are forgotten. But it answers as the one before would have done, however
many numbers are asked for.
-/

namespace TxnStore

open TxnStore.Action

/-! ## Sequences that answer alike -/

/-- Two sequences that hand out the same numbers from here on, as far as their catalogs let them. -/
structure Sequence.Alike (s t : Sequence) : Prop where
  name : s.name = t.name
  increment : s.increment = t.increment
  minValue : s.minValue = t.minValue
  maxValue : s.maxValue = t.maxValue
  cycle : s.cycle = t.cycle
  ahead : SameAhead s.increment s.value t.value

namespace Sequence

/-- A sequence is past its last bound once the cursor lies behind that word. -/
theorem isPastBound_iff (s : Sequence) :
    s.isPastBound = true ↔
      along s.increment (if 0 < s.increment.toInt then s.maxValue else s.minValue).toInt <
        along s.increment s.value := by
  unfold isPastBound ascending along
  by_cases hup : 0 < s.increment.toInt
  · simp [hup]
  · simp [hup]

namespace Alike

variable {s s' t t' : Sequence}

theorem refl (s : Sequence) : s.Alike s := ⟨rfl, rfl, rfl, rfl, rfl, .refl _ _⟩

theorem symm (h : s.Alike t) : t.Alike s :=
  ⟨h.name.symm, h.increment.symm, h.minValue.symm, h.maxValue.symm, h.cycle.symm,
    h.increment ▸ h.ahead.symm⟩

theorem trans (h : s.Alike s') (h' : s'.Alike t) : s.Alike t :=
  ⟨h.name.trans h'.name, h.increment.trans h'.increment, h.minValue.trans h'.minValue,
    h.maxValue.trans h'.maxValue, h.cycle.trans h'.cycle,
    h.ahead.trans (h.increment ▸ h'.ahead)⟩

/-- What is noted about stored margins has no part in what is handed out. -/
theorem of_notes (h : s.Notes s') : s.Alike s' := by
  obtain ⟨_, _, _, rfl⟩ := h
  exact ⟨rfl, rfl, rfl, rfl, rfl, .refl _ _⟩

/-- Two sequences that answer alike give the same answer and then answer alike again. -/
theorem draw (h : s.Alike t) :
    (∃ err, s.draw = .error err ∧ t.draw = .error err) ∨
      ∃ d e, s.draw = .ok d ∧ t.draw = .ok e ∧ d.number = e.number ∧
        d.sequence.Alike e.sequence := by
  obtain ⟨hname, hincrement, hmin, hmax, hcycle, hahead⟩ := h
  -- Both go by the same bounds, and stand on the same side of them.
  have hfirst : s.firstBound = t.firstBound := by
    rw [firstBound_eq, firstBound_eq, hincrement, hmin, hmax]
  have hpast : s.isPastBound = t.isPastBound := by
    rw [Bool.eq_iff_iff, isPastBound_iff, isPastBound_iff, ← hincrement, ← hmin, ← hmax]
    exact hahead.lt_iff _
  -- Exhausted, in need of another round, or in the middle of one: they are so together.
  rcases s.draw_cases with ⟨hs, hs', hrun⟩ | ⟨hs, hs', hrun⟩ | ⟨hs, hrun⟩
  · rcases t.draw_cases with ⟨-, -, hrun'⟩ | ⟨-, ht', -⟩ | ⟨ht, -⟩
    · exact .inl ⟨_, hrun, hname ▸ hrun'⟩
    · simp [← hcycle, hs'] at ht'
    · simp [← hpast, hs] at ht
  · rcases t.draw_cases with ⟨-, ht', -⟩ | ⟨-, -, hrun'⟩ | ⟨ht, -⟩
    · simp [← hcycle, hs'] at ht'
    · refine .inr ⟨_, _, hrun, hrun', hfirst, hname, hincrement, hmin, hmax, hcycle, .inl ?_⟩
      show s.firstBound + s.increment.toInt = t.firstBound + t.increment.toInt
      rw [hfirst, hincrement]
    · simp [← hpast, hs] at ht
  · rcases t.draw_cases with ⟨ht, -, -⟩ | ⟨ht, -, -⟩ | ⟨-, hrun'⟩
    · simp [← hpast, hs] at ht
    · simp [← hpast, hs] at ht
    · -- A cursor that is not past a bound lies within the words, and so it is the same one.
      have hvalue : s.value = t.value := by
        refine hahead.eq_of_not_lt (mt s.isPastBound_iff.mpr ?_)
        simp [hs]
      refine .inr ⟨_, _, hrun, hrun', hvalue, hname, hincrement, hmin, hmax, hcycle, .inl ?_⟩
      show s.value + s.increment.toInt = t.value + t.increment.toInt
      rw [hvalue, hincrement]

end Alike

end Sequence

namespace StoredSequence

variable {p q : StoredSequence}

/-- On a catalog that does not fail, the answer is the one that is drawn. -/
theorem next_of_ready (h : p.catalog.IsReady) :
    ∃ p', next.runOn p = (p.sequence.draw.map fun d => saturate d.number, p') ∧
      p'.catalog.IsReady ∧
      ∀ d, p.sequence.draw = .ok d → d.sequence.Alike p'.sequence := by
  rw [runOn_next]
  -- An exhausted sequence answers the same again.
  cases p.sequence.draw with
  | error err => exact ⟨p, rfl, h, fun d hd => by cases hd⟩
  | ok d =>
    dsimp only
    -- The margin is stored where there is one, and the catalog does not refuse it.
    cases d.reservation with
    | none =>
      refine ⟨⟨d.sequence, p.catalog⟩, rfl, h, fun e he => ?_⟩
      obtain rfl := Except.ok.inj he
      exact .refl _
    | some r =>
      obtain ⟨catalog, hready, -, hrun⟩ :=
        runOn_flushMargin_ready (p := ⟨d.sequence, p.catalog⟩) h r
      have hnotes := notes_flushMargin r ⟨d.sequence, p.catalog⟩
      rw [hrun] at hnotes
      refine ⟨⟨d.sequence.settled r, catalog⟩, ?_, hready, fun e he => ?_⟩
      · dsimp only
        rw [hrun]
        rfl
      · obtain rfl := Except.ok.inj he
        exact .of_notes hnotes

theorem runOn_draws_succ (n : Nat) (p : StoredSequence) :
    ((draws (n + 1)).runOn p).1 =
      ((draws n).runOn (next.runOn p).2).1.map fun rest => (next.runOn p).1 :: rest := by
  rw [draws, runOn_bind, runOn_attempt]
  simp only [runOn_bind]
  rcases (draws n).runOn (next.runOn p).2 with ⟨err | rest, p'⟩
  · rfl
  · rfl

/-- Sequences that answer alike give the same answer and then answer alike again. -/
theorem next_congr (hp : p.catalog.IsReady) (hq : q.catalog.IsReady)
    (h : p.sequence.Alike q.sequence) :
    ∃ answer p' q', next.runOn p = (answer, p') ∧ next.runOn q = (answer, q') ∧
      p'.catalog.IsReady ∧ q'.catalog.IsReady ∧ p'.sequence.Alike q'.sequence := by
  obtain ⟨p', hrun, hp', hrest⟩ := next_of_ready hp
  obtain ⟨q', hrun', hq', hrest'⟩ := next_of_ready hq
  -- They are exhausted together, or hand out the same number.
  rcases h.draw with ⟨err, hdraw, hdraw'⟩ | ⟨d, e, hdraw, hdraw', hnumber, hnext⟩
  · -- Both are exhausted and stay as they are.
    refine ⟨.error err, p, q, ?_, ?_, hp, hq, h⟩
    · rw [runOn_next, hdraw]
    · rw [runOn_next, hdraw']
  · have hanswer : p.sequence.draw.map (fun d => saturate d.number) =
        q.sequence.draw.map fun d => saturate d.number := by
      rw [hdraw, hdraw', Except.map, Except.map, hnumber]
    exact ⟨_, p', q', hrun, hanswer ▸ hrun', hp', hq',
      ((hrest d hdraw).symm.trans hnext).trans (hrest' e hdraw')⟩

/-- Sequences that answer alike do so however often they are asked. -/
theorem draws_congr (n : Nat) {p q : StoredSequence} (hp : p.catalog.IsReady)
    (hq : q.catalog.IsReady) (h : p.sequence.Alike q.sequence) :
    ((draws n).runOn p).1 = ((draws n).runOn q).1 := by
  induction n generalizing p q with
  | zero => rfl
  | succ n ih =>
    obtain ⟨answer, p', q', hrun, hrun', hp', hq', hrest⟩ := next_congr hp hq h
    rw [runOn_draws_succ, runOn_draws_succ, hrun, hrun', ih hp' hq' hrest]

/-! ## Closing -/

/-- The sequence after calls one after the other, whatever they answer. -/
def afterCalls (p : StoredSequence) (calls : List SequenceCall) : StoredSequence :=
  calls.foldl (fun p c => (c.action.runOn p).2) p

theorem IsKept.afterCalls (h : p.IsKept) (calls : List SequenceCall) :
    (p.afterCalls calls).IsKept := by
  induction calls generalizing p with
  | nil => exact h
  | cons c rest ih => exact ih (c.keeps_kept h)

/-- Closing leaves nothing reserved and changes nothing else that is handed out. -/
theorem IsKept.close (h : p.IsKept) :
    ∃ p', StoredSequence.close.runOn p = (.ok (), p') ∧ p'.IsKept ∧
      p'.sequence.margin = p'.sequence.value ∧ p.sequence.Alike p'.sequence := by
  rw [StoredSequence.close, runOn_releaseReserved]
  -- There are numbers to give back, or there are none.
  split
  · obtain ⟨p', hrun, hkept⟩ := h.alter (f := fun s => { s with margin := s.value })
      ⟨rfl, fun h => ⟨h.moves, h.step, h.cache, h.begun⟩, .inl rfl⟩
    let s : Sequence := { p.sequence with
      margin := p.sequence.value, generation := p.sequence.generation + 1 }
    have hnotes : s.Notes p'.sequence := by
      have hflush := notes_flushMargin ⟨p.sequence.value, p.sequence.generation + 1⟩ ⟨s, p.catalog⟩
      rw [runOn_alter] at hrun
      dsimp only at hrun hflush
      rwa [hrun] at hflush
    have halike : p.sequence.Alike s := ⟨rfl, rfl, rfl, rfl, rfl, .refl _ _⟩
    -- The margin is the cursor once nothing is reserved.
    refine ⟨p', hrun, hkept, ?_, halike.trans (.of_notes hnotes)⟩
    obtain ⟨_, _, _, hsame⟩ := hnotes
    rw [hsame]
  · next hsame => exact ⟨p, rfl, h, Decidable.not_not.mp hsame, .refl _⟩

/-- Where nothing is reserved, the sequence that is rebuilt answers as the one before. -/
theorem IsKept.rebuild (h : p.IsKept) (hreserved : p.sequence.margin = p.sequence.value) :
    ∃ q, p.rebuild = .ok q ∧ q.catalog = p.catalog ∧ q.sequence.Alike p.sequence := by
  obtain ⟨d, hstored, hresumes⟩ := h.stored
  refine ⟨⟨Sequence.takenUp d, p.catalog⟩, ?_, rfl, hresumes.name, hresumes.increment,
    hresumes.minValue, hresumes.maxValue, hresumes.cycle, ?_⟩
  · rw [StoredSequence.rebuild, hstored]
    dsimp only
    rw [Sequence.recover_of_recoverable hresumes.recoverable]
    rfl
  · -- What is stored is the margin, which is the cursor here.
    rw [← hreserved]
    show SameAhead d.increment d.nextValue p.sequence.margin
    rw [hresumes.increment]
    exact hresumes.ahead

/-! ## Main result -/

/-- A sequence that is kept in the catalog of a schema that has created it, or that was taken up
from its entry. -/
inductive IsTakenUp : StoredSequence → Prop where
  | created {schema schema' : Schema} {name : String} {options : SequenceOptions} {s : Sequence}
      (hready : schema.catalog.IsReady) (htemporary : options.temporary = false)
      (hcreate : (Schema.createSequence name options).runOn schema = (.ok s, schema')) :
      IsTakenUp ⟨s, schema'.catalog⟩
  | recovered {catalog : Catalog} {d : SequenceDefinition} {s : Sequence}
      (hready : catalog.IsReady)
      (hstored : (catalog.entry? ⟨.sequence, d.name⟩).map CatalogEntry.object = some (.sequence d))
      (hrecover : Sequence.recover d = .ok s) : IsTakenUp ⟨s, catalog⟩

theorem IsTakenUp.isKept (h : p.IsTakenUp) : p.IsKept := by
  -- A sequence that is created has an entry with its own definition; one that is recovered was made
  -- from it.
  cases h with
  | created hready htemporary hcreate =>
    obtain ⟨id, d, hdefinition, rfl, hready', hstored⟩ :=
      Schema.stored_of_createSequence hready htemporary hcreate
    have hregular := Sequence.isRegular_ofDefinition
      (SequenceOptions.valid_of_definition hdefinition).1.recoverable
    exact
      { ready := hready'
        persistent := rfl
        regular := hregular
        generation := rfl
        flushed := nofun
        fresh := fun _ => rfl
        begun := hregular.begun
        stored := ⟨_, congrArg (Option.map _) hstored,
          hregular.resumes_definitionAt hregular.begun⟩ }
  | recovered hready hstored hrecover =>
    obtain ⟨hrecoverable, rfl⟩ := Sequence.eq_of_recover hrecover
    exact isKept_takenUp hready hstored hrecoverable

/-- On a catalog that does not fail, a sequence that is closed after any calls can be rebuilt from
its entry. However many numbers are asked for, what is rebuilt answers as the sequence would have
done, both without the close and after it: the same numbers, starting over in the same places, and
exhausted in the same ones. -/
theorem goes_on_after_close (h : p.IsTakenUp) (calls : List SequenceCall) :
    ∃ closed q, StoredSequence.close.runOn (p.afterCalls calls) = (.ok (), closed) ∧
      closed.rebuild = .ok q ∧ ∀ n,
        ((draws n).runOn q).1 = ((draws n).runOn (p.afterCalls calls)).1 ∧
          ((draws n).runOn q).1 = ((draws n).runOn closed).1 := by
  have hkept := h.isKept.afterCalls calls
  obtain ⟨closed, hclose, hclosed, hreserved, hopen⟩ := hkept.close
  obtain ⟨q, hrebuild, hcatalog, halike⟩ := hclosed.rebuild hreserved
  have hq : q.catalog.IsReady := hcatalog ▸ hclosed.ready
  exact ⟨closed, q, hclose, hrebuild, fun n =>
    ⟨draws_congr n hq hkept.ready (halike.trans hopen.symm), draws_congr n hq hclosed.ready halike⟩⟩

/-- A sequence that goes down in fives and has passed the least word is closed. It comes back with
its cursor elsewhere beyond the words, and starts over at its upper bound as it would have done. -/
theorem goes_on_after_close_beyond_words :
    let last : Int64 := Int64.minValue + 20
    let d : SequenceDefinition := ⟨⟨1⟩, "rows", Int64.minValue + 3, -5, Int64.minValue, last, 3,
      true, false, false⟩
    let catalog := ((Catalog.persist (.ofSequence d)).runOn .inMemory).2
    let p : StoredSequence := ⟨Sequence.takenUp d, catalog⟩
    p.IsTakenUp ∧ ∃ closed q,
      StoredSequence.close.runOn (p.afterCalls [.next, .setCacheSize 2]) = (.ok (), closed) ∧
        closed.rebuild = .ok q ∧ closed.sequence.value = leastWord - 2 ∧
        q.sequence.value = leastWord - 5 ∧
        ((draws 2).runOn q).1 = .ok [.ok last, .ok (last - 5)] := by
  intro last d catalog p
  have hready : catalog.IsReady := by
    obtain ⟨c, hrun, hready, -⟩ := Catalog.isReady_inMemory.persist (.ofSequence d)
    show ((Catalog.persist (.ofSequence d)).runOn .inMemory).2.IsReady
    rw [hrun]
    exact hready
  have htaken : p.IsTakenUp :=
    .recovered hready (by decide +kernel) (Sequence.recover_of_recoverable (by decide +kernel))
  let calls : List SequenceCall := [.next, .setCacheSize 2]
  have hclosed : (StoredSequence.close.runOn (p.afterCalls calls)).2.sequence.value =
      leastWord - 2 := by
    decide +kernel
  have hrebuilt : (StoredSequence.close.runOn (p.afterCalls calls)).2.rebuild.toOption.map
      (fun q => q.sequence.value) = some (leastWord - 5) := by
    decide +kernel
  have hdraws : ((draws 2).runOn (p.afterCalls calls)).1.toOption.map
      (fun numbers => numbers.map Except.toOption) = some [some last, some (last - 5)] := by
    decide +kernel
  -- The general statement tells the numbers apart from how they are written down.
  obtain ⟨closed, q, hclose, hrebuild, hanswers⟩ := goes_on_after_close htaken calls
  rw [hclose] at hclosed hrebuilt
  rw [hrebuild] at hrebuilt
  refine ⟨htaken, closed, q, hclose, hrebuild, hclosed, Option.some.inj hrebuilt, ?_⟩
  rw [(hanswers 2).1]
  -- Neither the draws nor any of them fails, so that the numbers are all there is to them.
  generalize ((draws 2).runOn (p.afterCalls calls)).1 = outcome at hdraws ⊢
  rcases outcome with err | numbers
  · cases hdraws
  · obtain ⟨first, rest, rfl, hfirst, hrest⟩ := List.map_eq_cons_iff.mp (Option.some.inj hdraws)
    obtain ⟨second, rfl, hsecond⟩ := List.map_eq_singleton_iff.mp hrest
    cases first with
    | error err => cases hfirst
    | ok v =>
      cases second with
      | error err => cases hsecond
      | ok w => rw [Option.some.inj hfirst, Option.some.inj hsecond]

end StoredSequence

end TxnStore
