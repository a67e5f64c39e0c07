import Mathlib.Control.Monad.Basic
import TxnStore.Proofs.Sequences.Refusals

/-!
# Calls that fail at the catalog

A call changes the sequence first and stores the margin afterwards, and what it has changed is not
taken back if storing fails. The sequence then goes on as after the same call on a catalog that works;
only the catalog stays behind. A call that is refused leaves both as they were.

That two sequences go on alike is said of margins as well: the margins that lie ahead are news to both
or to neither, so that the next one to be stored fails or succeeds for both.
-/

namespace TxnStore

open TxnStore.Action

/-! ## Sequences in step -/

namespace Sequence

variable {s t u : Sequence} {m n : Int}

/-- A margin further on than one that is news is news as well. -/
theorem shouldFlush_of_le (h : s.shouldFlush (s.reservationAt m) = true)
    (hle : along s.increment m ≤ along s.increment n) :
    s.shouldFlush (s.reservationAt n) = true := by
  by_cases hgeneration : s.generation = s.flushedGeneration
  · rw [shouldFlush_iff hgeneration] at h ⊢
    exact fun last hlast => Int.lt_of_lt_of_le (h last hlast) hle
  · have hother : (s.reservationAt m).generation ≠ s.flushedGeneration := hgeneration
    rw [shouldFlush, if_pos hother] at h
    exact shouldFlush_of_lt (of_decide_eq_true h)

/-- The sequence after an attempt to store a margin. -/
def attempted (s : Sequence) (r : Reservation) (stored : Bool) : Sequence :=
  if s.shouldFlush r then
    if stored then s.flushed r else { s with persistedMargin := r.margin }
  else s

/-- Two sequences go on alike. They differ at most in what they note about stored margins, and a
margin that lies ahead is news to both or to neither. -/
structure InStep (s t : Sequence) : Prop where
  notes : s.Notes t
  current : s.flushedGeneration ≤ s.generation
  current' : t.flushedGeneration ≤ t.generation
  news : ∀ m, along s.increment s.margin < along s.increment m →
    s.shouldFlush (s.reservationAt m) = t.shouldFlush (t.reservationAt m)

namespace InStep

theorem refl (h : s.flushedGeneration ≤ s.generation) : s.InStep s :=
  ⟨.refl s, h, h, fun _ _ => rfl⟩

theorem symm (h : s.InStep t) : t.InStep s := by
  obtain ⟨⟨_, _, _, rfl⟩, hs, ht, hnews⟩ := h
  exact ⟨⟨_, _, _, rfl⟩, ht, hs, fun m hm => (hnews m hm).symm⟩

theorem trans (h : s.InStep t) (h' : t.InStep u) : s.InStep u := by
  obtain ⟨⟨_, _, _, rfl⟩, hs, -, hnews⟩ := h
  obtain ⟨⟨_, _, _, rfl⟩, -, hu, hnews'⟩ := h'
  exact ⟨⟨_, _, _, rfl⟩, hs, hu, fun m hm => (hnews m hm).trans (hnews' m hm)⟩

theorem temporary (h : s.InStep t) : s.temporary = t.temporary := by
  obtain ⟨⟨_, _, _, rfl⟩, -⟩ := h
  rfl

theorem definition (h : s.InStep t) : s.definition = t.definition := by
  obtain ⟨⟨_, _, _, rfl⟩, -⟩ := h
  rfl

/-- An attempt to store a margin that does not lie ahead makes no difference, whether or not it
succeeds. -/
theorem of_attempt (hcurrent : s.flushedGeneration ≤ s.generation)
    (hm : along s.increment m ≤ along s.increment s.margin) (stored : Bool) :
    s.InStep (s.attempted (s.reservationAt m) stored) := by
  unfold attempted
  split
  · next hnews =>
    cases stored with
    | true =>
      refine ⟨⟨_, _, _, rfl⟩, hcurrent, Nat.le_refl _, fun n hn => ?_⟩
      -- Whether the margin is stored or not, what lies behind it is news.
      rw [shouldFlush_of_le hnews (by omega)]
      refine ((shouldFlush_iff rfl).mpr fun last hlast => ?_).symm
      obtain rfl : m = last := Option.some.inj hlast
      exact Int.lt_of_le_of_lt hm hn
    | false => exact ⟨⟨_, _, _, rfl⟩, hcurrent, hcurrent, fun _ _ => rfl⟩
  · exact .refl hcurrent

/-- The same attempt to store the same margin keeps sequences in step, also if the margin lies
ahead. -/
theorem attempted (h : s.InStep t) (m : Int) (stored : Bool) :
    (s.attempted (s.reservationAt m) stored).InStep (t.attempted (t.reservationAt m) stored) := by
  by_cases hm : along s.increment s.margin < along s.increment m
  · -- Beyond the margin a target is news to both or to neither.
    have hnews := h.news m hm
    obtain ⟨⟨_, _, _, rfl⟩, hs, ht, hlater⟩ := h
    unfold Sequence.attempted
    rw [← hnews]
    cases s.shouldFlush (s.reservationAt m) with
    | false => exact ⟨⟨_, _, _, rfl⟩, hs, ht, hlater⟩
    | true =>
      cases stored with
      | false => exact ⟨⟨_, _, _, rfl⟩, hs, ht, hlater⟩
      | true => exact ⟨⟨_, _, _, rfl⟩, Nat.le_refl _, Nat.le_refl _, fun _ _ => rfl⟩
  · -- Up to the margin an attempt leaves each in step with itself.
    have ht : along t.increment m ≤ along t.increment t.margin := by
      obtain ⟨⟨_, _, _, rfl⟩, -⟩ := h
      exact Int.not_lt.mp hm
    exact (of_attempt h.current (Int.not_lt.mp hm) stored).symm.trans
      (h.trans (of_attempt h.current' ht stored))

/-- Attributes that are changed alike start a generation in which every margin is news. -/
theorem altered (h : s.InStep t) {f : Sequence → Sequence} (hnotes : (f s).Notes (f t))
    (halters : ∀ s : Sequence, s.Alters (f s)) {s' t' : Sequence}
    (hs' : s' = { f s with generation := s.generation + 1 })
    (ht' : t' = { f t with generation := t.generation + 1 }) :
    s'.InStep t' ∧ (∀ m, s'.shouldFlush (s'.reservationAt m) = true) ∧
      ∀ m, t'.shouldFlush (t'.reservationAt m) = true := by
  -- Each alteration starts a generation of which nothing is stored yet.
  have hs : s'.flushedGeneration < s'.generation := by
    rw [hs', (halters s).same]
    exact Nat.lt_succ_of_le h.current
  have ht : t'.flushedGeneration < t'.generation := by
    rw [ht', (halters t).same]
    exact Nat.lt_succ_of_le h.current'
  have hnews : ∀ m, s'.shouldFlush (s'.reservationAt m) = true := fun _ => shouldFlush_of_lt hs
  have hnews' : ∀ m, t'.shouldFlush (t'.reservationAt m) = true := fun _ => shouldFlush_of_lt ht
  have hnotes' : s'.Notes t' := by
    obtain ⟨⟨_, _, _, rfl⟩, -⟩ := h
    obtain ⟨m, last, g, hnotes⟩ := hnotes
    exact ⟨m, last, g, by rw [hs', ht', hnotes]⟩
  exact ⟨⟨hnotes', Nat.le_of_lt hs, Nat.le_of_lt ht, fun m _ => (hnews m).trans (hnews' m).symm⟩,
    hnews, hnews'⟩

/-- Sequences in step draw the same number, go on in step, and store the same margin, which is news
to both or to neither. -/
theorem draw (h : s.InStep t) (hs : s.IsRegular) :
    (∃ err, s.draw = .error err ∧ t.draw = .error err ∧ err.isSequenceRefusal = true) ∨
      ∃ d e, s.draw = .ok d ∧ t.draw = .ok e ∧ e.number = d.number ∧
        e.reservation = d.reservation ∧ d.sequence.InStep e.sequence ∧
        ∀ r, d.reservation = some r → r = d.sequence.reservationAt d.sequence.margin ∧
          r = e.sequence.reservationAt e.sequence.margin ∧
          d.sequence.shouldFlush r = e.sequence.shouldFlush r := by
  obtain ⟨⟨m, last, g, rfl⟩, hcurrent, hcurrent', hnews⟩ := h
  let noted (s : Sequence) : Sequence :=
    { s with persistedMargin := m, flushedMargin := last, flushedGeneration := g }
  -- What was noted has no part in the draw.
  have hdraw : (noted s).draw = s.draw.map fun d => { d with sequence := noted d.sequence } := by
    have hpast : (noted s).isPastBound = s.isPastBound := rfl
    have hcycle : (noted s).cycle = s.cycle := rfl
    have hused : (noted s).isUsedUp = s.isUsedUp := rfl
    rw [Sequence.draw, Sequence.draw, hpast, hcycle, hused]
    cases s.isPastBound <;> cases s.cycle <;> cases s.isUsedUp <;> rfl
  rcases s.draw_cases with ⟨-, -, hrun⟩ | ⟨-, -, hrun⟩ | ⟨-, hrun⟩
  · -- Exhausted alike.
    rw [hrun] at hdraw
    exact .inl ⟨_, hrun, hdraw, rfl⟩
  · rw [hrun] at hdraw
    -- A new round is a new generation, in which every margin is news.
    have hlt : s.flushedGeneration < s.generation + 1 := Nat.lt_succ_of_le hcurrent
    have hlt' : g < s.generation + 1 := Nat.lt_succ_of_le hcurrent'
    have hboth : ∀ m, s.wrapped.shouldFlush (s.wrapped.reservationAt m) =
        (noted s.wrapped).shouldFlush ((noted s.wrapped).reservationAt m) := by
      intro m
      rw [shouldFlush_of_lt hlt, shouldFlush_of_lt hlt']
    refine .inr ⟨_, _, hrun, hdraw, rfl, rfl,
      ⟨⟨_, _, _, rfl⟩, Nat.le_of_lt hlt, Nat.le_of_lt hlt', fun m _ => hboth m⟩, ?_⟩
    rintro r ⟨⟩
    exact ⟨rfl, rfl, hboth _⟩
  · rw [hrun] at hdraw
    have hreserve := hs.lt_reserveFrom s.margin
    -- The old reserve lasts, or another one is made behind it.
    cases hused : s.isUsedUp with
    | false =>
      have hmargin : s.marginAfter = s.margin := by simp [marginAfter, hused]
      rw [hmargin] at hrun hdraw
      refine .inr ⟨_, _, hrun, hdraw, rfl, rfl, ⟨⟨_, _, _, rfl⟩, hcurrent, hcurrent', hnews⟩, ?_⟩
      simp [reservationAfter, hused]
    | true =>
      have hmargin : s.marginAfter = s.reserveFrom s.margin := by simp [marginAfter, hused]
      rw [hmargin] at hrun hdraw
      refine .inr ⟨_, _, hrun, hdraw, rfl, rfl, ⟨⟨_, _, _, rfl⟩, hcurrent, hcurrent', fun n hn =>
        hnews n (Int.lt_trans hreserve hn)⟩, fun r hr => ?_⟩
      obtain rfl : s.reservationAt (s.reserveFrom s.margin) = r := by
        simpa [reservationAfter, reservationAt, hused, hmargin] using hr
      exact ⟨rfl, rfl, hnews _ hreserve⟩

end InStep

end Sequence

/-! ## Storing a margin -/

theorem Action.runOn_of_map_error {σ α β : Type} {f : α → β} {a : Action σ α} {s t : σ}
    {err : StoreError} (h : (f <$> a).runOn s = (.error err, t)) : a.runOn s = (.error err, t) := by
  rw [runOn_map] at h
  rcases hrun : a.runOn s with ⟨e | x, t'⟩
  · rw [hrun] at h
    obtain ⟨herr, rfl⟩ := Prod.mk.inj h
    rw [Except.error.inj herr]
  · rw [hrun] at h
    cases h

namespace StoredSequence

variable {p q : StoredSequence}

/-- What storing a margin that is news answers. A temporary sequence leaves its catalog alone. -/
def storingAnswer (p : StoredSequence) : Except StoreError Unit :=
  if p.sequence.temporary then .ok ()
  else if p.catalog.store.isSetToFail (·.write) then .error (.device .diskFull)
  else p.catalog.store.commitAnswer

theorem storingAnswer_congr (htemporary : p.sequence.temporary = q.sequence.temporary)
    (hlike : p.catalog.store.FailsLike q.catalog.store) : p.storingAnswer = q.storingAnswer := by
  unfold storingAnswer
  rw [htemporary, hlike.isSetToFail, hlike.commitAnswer]

/-- A margin that is news is stored as far as the catalog lets it; if it does not, the committed
entries stay as they are. -/
theorem runOn_flushMargin_attempted (p : StoredSequence) (r : Reservation) :
    ∃ catalog, (flushMargin r).runOn p =
        (if p.sequence.shouldFlush r then p.storingAnswer else .ok (),
          ⟨p.sequence.attempted r p.storingAnswer.isOk, catalog⟩) ∧
      p.catalog.store.FailsLike catalog.store ∧
      ∀ err, p.storingAnswer = .error err →
        catalog.store.committed = p.catalog.store.committed := by
  unfold Sequence.attempted
  -- There is nothing to store, a temporary sequence to mark, or an entry to write.
  cases hnews : p.sequence.shouldFlush r with
  | false =>
    exact ⟨p.catalog, runOn_flushMargin_of_not_shouldFlush hnews, .refl _, fun _ _ => rfl⟩
  | true =>
    rcases Bool.eq_false_or_eq_true p.sequence.temporary with htemporary | htemporary
    · have hanswer : p.storingAnswer = .ok () := if_pos htemporary
      rw [runOn_flushMargin_temporary hnews htemporary, hanswer]
      exact ⟨p.catalog, rfl, .refl _, nofun⟩
    · have hmark := Sequence.markFlushed_of_shouldFlush hnews r.margin
      rw [flushMargin, inBatch, runOn_mk, runOn_bind,
        Sequence.runOn_stage_persistent hnews htemporary, CatalogBatch.runOn_write_if]
      -- The write fails, or all depends on the commit.
      cases hwrite : p.catalog.store.isSetToFail (·.write) with
      | true =>
        have hanswer : p.storingAnswer = .error (.device .diskFull) := by
          simp [storingAnswer, htemporary, hwrite]
        refine ⟨p.catalog, ?_, .refl _, fun _ _ => rfl⟩
        simp [hanswer, Except.map, CatalogBatch.drop, Except.isOk, Except.toBool]
      | false =>
        have hanswer : p.storingAnswer = p.catalog.store.commitAnswer := by
          simp [storingAnswer, htemporary, hwrite]
        obtain ⟨catalog, hcommit, hlike, hcommitted⟩ :=
          CatalogBatch.runOn_commit_staging_answer p.catalog false
            (.write (.ofSequence (p.sequence.definitionAt r.margin)))
        refine ⟨catalog, ?_, hlike, fun err herr => hcommitted err (hanswer ▸ herr)⟩
        rw [hanswer]
        -- An entry that could not be committed leaves the mark as it was.
        cases hcase : p.catalog.store.commitAnswer with
        | error err =>
          rw [hcase] at hcommit
          simp [runOn_bind, Except.map, hcommit, CatalogBatch.drop, Except.isOk, Except.toBool]
        | ok u =>
          rw [hcase] at hcommit
          simp [runOn_bind, Except.map, hcommit, hmark, Sequence.flushed, CatalogBatch.drop,
            Except.isOk, Except.toBool]

/-- Storing margins that are news or are not answers the same where the catalogs fail alike. -/
theorem flushMargin_congr {r r' : Reservation}
    (htemporary : p.sequence.temporary = q.sequence.temporary)
    (hlike : p.catalog.store.FailsLike q.catalog.store)
    (hnews : p.sequence.shouldFlush r = q.sequence.shouldFlush r') :
    ((flushMargin r).runOn p).1 = ((flushMargin r').runOn q).1 := by
  obtain ⟨_, hp, -⟩ := p.runOn_flushMargin_attempted r
  obtain ⟨_, hq, -⟩ := q.runOn_flushMargin_attempted r'
  rw [hp, hq, hnews, storingAnswer_congr htemporary hlike]

/-- A margin that cannot be stored leaves the committed entries as they were. -/
theorem committed_of_flushMargin_error {r : Reservation} {err : StoreError} {failed : StoredSequence}
    (hrun : (flushMargin r).runOn p = (.error err, failed)) :
    failed.catalog.store.committed = p.catalog.store.committed := by
  obtain ⟨catalog, hattempt, -, hcommitted⟩ := p.runOn_flushMargin_attempted r
  obtain ⟨hanswer, rfl⟩ := Prod.mk.inj (hrun.symm.trans hattempt)
  split at hanswer
  · exact hcommitted err hanswer.symm
  · cases hanswer

theorem failsLike_flushMargin (p : StoredSequence) (r : Reservation) :
    p.catalog.store.FailsLike ((flushMargin r).runOn p).2.catalog.store := by
  obtain ⟨catalog, hrun, hlike, -⟩ := p.runOn_flushMargin_attempted r
  rwa [hrun]

/-- Sequences in step go on in step whether or not they can store their margins. -/
theorem inStep_flushMargin {s t : Sequence} (h : s.InStep t) (c c' : Catalog) :
    ((flushMargin (s.reservationAt s.margin)).runOn ⟨s, c⟩).2.sequence.InStep
      ((flushMargin (t.reservationAt t.margin)).runOn ⟨t, c'⟩).2.sequence := by
  obtain ⟨_, hs, -⟩ := runOn_flushMargin_attempted ⟨s, c⟩ (s.reservationAt s.margin)
  obtain ⟨_, ht, -⟩ := runOn_flushMargin_attempted ⟨t, c'⟩ (t.reservationAt t.margin)
  rw [hs, ht]
  exact (Sequence.InStep.of_attempt h.current (Int.le_refl _) _).symm.trans
    (h.trans (.of_attempt h.current' (Int.le_refl _) _))

end StoredSequence

/-! ## Calls -/

/-- All that a call can do with two sequences in step: it leaves both as they are, it moves both on, or
it changes both and stores their margins. -/
inductive SequenceCall.Alongside (p q : StoredSequence) (c : SequenceCall) : Prop where
  | kept (answer : SequenceAnswer) (hrun : c.action.runOn p = (answer, p))
      (hrun' : c.action.runOn q = (answer, q))
      (hrefusal : ∀ err, answer = .error err → err.isSequenceRefusal = true)
  | moved {s t : Sequence} (answer : Option Int64) (hstep : s.InStep t)
      (hrun : c.action.runOn p = (.ok answer, ⟨s, p.catalog⟩))
      (hrun' : c.action.runOn q = (.ok answer, ⟨t, q.catalog⟩))
  | stored {s t : Sequence} (answer : Option Int64) (hstep : s.InStep t)
      (hnews : s.shouldFlush (s.reservationAt s.margin) = t.shouldFlush (t.reservationAt t.margin))
      (hrun : c.action.runOn p =
        ((fun _ => answer) <$> StoredSequence.flushMargin (s.reservationAt s.margin)).runOn
          ⟨s, p.catalog⟩)
      (hrun' : c.action.runOn q =
        ((fun _ => answer) <$> StoredSequence.flushMargin (t.reservationAt t.margin)).runOn
          ⟨t, q.catalog⟩)

namespace SequenceCall

variable {p q : StoredSequence}

theorem alongside_next (h : p.sequence.InStep q.sequence) (hp : p.sequence.IsRegular) :
    Alongside p q next := by
  -- Both are exhausted, or both hand out the same number, with the same to store.
  rcases h.draw hp with ⟨err, hd, he, hrefusal⟩ | ⟨d, e, hd, he, hnumber, hsame, hstep, hown⟩
  · refine .kept (.error err) ?_ ?_ fun _ herr => Except.error.inj herr ▸ hrefusal
    · rw [action, runOn_map, StoredSequence.runOn_next, hd]
      rfl
    · rw [action, runOn_map, StoredSequence.runOn_next, he]
      rfl
  · cases hr : d.reservation with
    | none =>
      refine .moved (some (saturate d.number)) hstep ?_ ?_
      · rw [action, runOn_map, StoredSequence.runOn_next, hd]
        simp only [hr]
        rfl
      · rw [action, runOn_map, StoredSequence.runOn_next, he]
        simp only [hsame, hr, hnumber]
        rfl
    | some r =>
      obtain ⟨hown, hown', hnews⟩ := hown r hr
      refine .stored (some (saturate d.number)) hstep (hown ▸ hown' ▸ hnews) ?_ ?_
      · rw [action, runOn_map, StoredSequence.runOn_next, hd, ← hown, runOn_map]
        simp only [hr]
        cases ((StoredSequence.flushMargin r).runOn ⟨d.sequence, p.catalog⟩).1 <;> rfl
      · rw [action, runOn_map, StoredSequence.runOn_next, he, ← hown', runOn_map]
        simp only [hsame, hr, hnumber]
        cases ((StoredSequence.flushMargin r).runOn ⟨e.sequence, q.catalog⟩).1 <;> rfl

/-- Sequences in step do the same with a call. -/
theorem alongside (h : p.sequence.InStep q.sequence) (hp : p.sequence.IsRegular)
    (c : SequenceCall) : Alongside p q c := by
  -- Where a call alters the sequence both store it, since both have a new generation.
  cases together h.notes c with
  | drawn => exact alongside_next h hp
  | refused err hrun hrun' hrefusal =>
    exact .kept (.error err) hrun hrun' fun _ herr => Except.error.inj herr ▸ hrefusal
  | idle hrun hrun' => exact .kept (.ok none) hrun hrun' nofun
  | altered hrun hrun' halters hnotes =>
    obtain ⟨hstep, hnews, hnews'⟩ := h.altered hnotes halters rfl rfl
    refine .stored none hstep ((hnews _).trans (hnews' _).symm) (hrun.trans ?_)
      (hrun'.trans ?_)
    · rw [runOn_numberless, runOn_map, StoredSequence.runOn_alter]
      rfl
    · rw [runOn_numberless, runOn_map, StoredSequence.runOn_alter]
      rfl

end SequenceCall

namespace SequenceCall.Alongside

variable {p q : StoredSequence} {c : SequenceCall}

theorem inStep (h : Alongside p q c) (hstep : p.sequence.InStep q.sequence) :
    (c.action.runOn p).2.sequence.InStep (c.action.runOn q).2.sequence := by
  cases h with
  | kept _ hrun hrun' _ =>
    rw [hrun, hrun']
    exact hstep
  | moved _ hstep hrun hrun' =>
    rw [hrun, hrun']
    exact hstep
  | stored _ hstep _ hrun hrun' =>
    rw [hrun, hrun', runOn_map, runOn_map]
    exact StoredSequence.inStep_flushMargin hstep p.catalog q.catalog

/-- Where the catalogs fail alike, the answers are the same. -/
theorem answer_eq (h : Alongside p q c) (hlike : p.catalog.store.FailsLike q.catalog.store) :
    (c.action.runOn p).1 = (c.action.runOn q).1 := by
  cases h with
  | kept _ hrun hrun' _ => rw [hrun, hrun']
  | moved _ _ hrun hrun' => rw [hrun, hrun']
  | @stored s t answer hstep hnews hrun hrun' =>
    rw [hrun, hrun', runOn_map, runOn_map]
    exact congrArg (Except.map fun _ => answer) (StoredSequence.flushMargin_congr
      (p := ⟨s, p.catalog⟩) (q := ⟨t, q.catalog⟩) hstep.temporary hlike hnews)

/-- A call does not change where the catalogs fail. -/
theorem failsLike (h : Alongside p q c) :
    p.catalog.store.FailsLike (c.action.runOn p).2.catalog.store ∧
      q.catalog.store.FailsLike (c.action.runOn q).2.catalog.store := by
  -- Faults of the catalog stay set whatever is done.
  cases h with
  | kept _ hrun hrun' _ =>
    rw [hrun, hrun']
    exact ⟨.refl _, .refl _⟩
  | moved _ _ hrun hrun' =>
    rw [hrun, hrun']
    exact ⟨.refl _, .refl _⟩
  | @stored s t answer _ _ hrun hrun' =>
    rw [hrun, hrun', runOn_map, runOn_map]
    exact ⟨StoredSequence.failsLike_flushMargin ⟨s, p.catalog⟩ _,
      StoredSequence.failsLike_flushMargin ⟨t, q.catalog⟩ _⟩

end SequenceCall.Alongside

/-! ## Batches of the caller -/

/-- A margin of the caller is marked as far as it can be staged. -/
theorem Sequence.runOn_flushWith_attempted (s : Sequence) (b : CatalogBatch) (m : Int) :
    ∃ answer b', (flushWith m).runOn (s, b) =
        (answer, s.attempted (s.reservationAt m)
          (s.temporary || !b.catalog.store.isSetToFail (·.write)), b') ∧
      b.catalog.store.FailsLike b'.catalog.store := by
  unfold attempted
  rw [flushWith, runOn_bind, runOn_get]
  dsimp only
  rw [runOn_bind]
  -- No news, nothing to write to, or a write that may fail.
  cases hnews : s.shouldFlush (s.reservationAt m) with
  | false =>
    rw [runOn_stage_of_not_shouldFlush hnews]
    exact ⟨_, _, rfl, .refl _⟩
  | true =>
    have hmark := markFlushed_of_shouldFlush hnews m
    rcases Bool.eq_false_or_eq_true s.temporary with htemporary | htemporary
    · rw [runOn_stage_temporary hnews htemporary]
      refine ⟨.ok (), b, ?_, .refl _⟩
      simp [htemporary, reservationAt, flushed] at hmark ⊢
      exact hmark
    · rw [runOn_stage_persistent hnews htemporary, CatalogBatch.runOn_write_if]
      cases hwrite : b.catalog.store.isSetToFail (·.write) with
      | true =>
        refine ⟨.error (.device .diskFull), b, ?_, .refl _⟩
        simp [htemporary, reservationAt, Except.map]
      | false =>
        refine ⟨.ok (), b.staging (.write (.ofSequence (s.definitionAt m))), ?_,
          .of_backing rfl⟩
        simp [htemporary, reservationAt, Except.map, flushed] at hmark ⊢
        exact hmark

/-- The calls of a batch keep sequences in step whose catalogs fail alike. -/
theorem BatchCall.inStep {s t : Sequence} {b b' : CatalogBatch} (h : s.InStep t)
    (hlike : b.catalog.store.FailsLike b'.catalog.store) (c : BatchCall) :
    (c.action.runOn (s, b)).2.1.InStep (c.action.runOn (t, b')).2.1 ∧
      (c.action.runOn (s, b)).2.2.catalog.store.FailsLike
        (c.action.runOn (t, b')).2.2.catalog.store := by
  cases c with
  | stage w =>
    -- What is staged does not concern the sequence.
    have hstage : ∀ (s : Sequence) (b : CatalogBatch),
        ((stage w).action.runOn (s, b)).2.1 = s ∧
          b.catalog.store.FailsLike ((stage w).action.runOn (s, b)).2.2.catalog.store := by
      intro s b
      rcases stage_cases s b w with hrun | hrun
      · rw [hrun]
        exact ⟨rfl, .of_backing rfl⟩
      · rw [hrun]
        exact ⟨rfl, .refl _⟩
    obtain ⟨hs, hb⟩ := hstage s b
    obtain ⟨ht, hb'⟩ := hstage t b'
    rw [hs, ht]
    exact ⟨h, hb.symm.trans (hlike.trans hb')⟩
  | flush target =>
    -- The target is tried on both sides, with the same luck.
    obtain ⟨_, _, hs, hb⟩ := s.runOn_flushWith_attempted b target.toInt
    obtain ⟨_, _, ht, hb'⟩ := t.runOn_flushWith_attempted b' target.toInt
    rw [action, hs, ht, ← h.temporary, ← hlike.isSetToFail]
    exact ⟨h.attempted _ _, hb.symm.trans (hlike.trans hb')⟩

theorem BatchCall.inStep_attemptAll (calls : List BatchCall) {s t : Sequence}
    {b b' : CatalogBatch} (h : s.InStep t) (hlike : b.catalog.store.FailsLike b'.catalog.store) :
    ((attemptAll calls).runOn (s, b)).2.1.InStep ((attemptAll calls).runOn (t, b')).2.1 ∧
      ((attemptAll calls).runOn (s, b)).2.2.catalog.store.FailsLike
        ((attemptAll calls).runOn (t, b')).2.2.catalog.store := by
  induction calls generalizing s t b b' with
  | nil => exact ⟨h, hlike⟩
  | cons c rest ih =>
    obtain ⟨hstep, hlike'⟩ := c.inStep h hlike
    rw [attemptAll_cons, attemptAll_cons]
    exact ih hstep hlike'

/-! ## Uses -/

namespace SequenceUse

/-- Sequences in step stay so whatever is done with both, as long as their catalogs fail alike. -/
theorem inStep {p q : StoredSequence} (h : p.sequence.InStep q.sequence)
    (hp : p.sequence.IsRegular) (hlike : p.catalog.store.FailsLike q.catalog.store)
    (u : SequenceUse) :
    (u.answers.runOn p).2.sequence.InStep (u.answers.runOn q).2.sequence ∧
      (u.answers.runOn p).2.catalog.store.FailsLike (u.answers.runOn q).2.catalog.store := by
  -- Calls and margins go on alike, and so does every call of a batch.
  cases u with
  | call c =>
    have hboth := c.alongside h hp
    obtain ⟨hlike₁, hlike₂⟩ := hboth.failsLike
    exact ⟨hboth.inStep h, hlike₁.symm.trans (hlike.trans hlike₂)⟩
  | flush target =>
    have hrun : ∀ p : StoredSequence, ((flush target).answers.runOn p).2 =
        ((StoredSequence.flushMargin (p.sequence.reservationAt target.toInt)).runOn p).2 := by
      intro p
      rw [answers, runOn_bind, runOn_attempt, runOn_numberless, StoredSequence.runOn_flush]
      rfl
    obtain ⟨c, hs, hc, -⟩ :=
      p.runOn_flushMargin_attempted (p.sequence.reservationAt target.toInt)
    obtain ⟨c', ht, hc', -⟩ :=
      q.runOn_flushMargin_attempted (q.sequence.reservationAt target.toInt)
    rw [hrun, hrun, hs, ht, StoredSequence.storingAnswer_congr h.temporary hlike]
    exact ⟨h.attempted _ _, hc.symm.trans (hlike.trans hc')⟩
  | batch calls commits =>
    have hstart : (CatalogBatch.mk p.catalog false).catalog.store.FailsLike
        (CatalogBatch.mk q.catalog false).catalog.store := hlike
    obtain ⟨hstep, hlike'⟩ := BatchCall.inStep_attemptAll calls h hstart
    obtain ⟨_, s, b, hrun, -⟩ :=
      BatchCall.runOn_attemptAll calls p.sequence ⟨p.catalog, false⟩
    obtain ⟨_, t, b', hrun', -⟩ :=
      BatchCall.runOn_attemptAll calls q.sequence ⟨q.catalog, false⟩
    rw [hrun, hrun'] at hstep hlike'
    -- Whether the batch is committed or dropped, the faults are still the same.
    cases commits with
    | false =>
      rw [runOn_batch_dropped hrun, runOn_batch_dropped hrun']
      exact ⟨hstep, b.failsLike_drop.symm.trans (hlike'.trans b'.failsLike_drop)⟩
    | true =>
      rw [runOn_batch_committed hrun, runOn_batch_committed hrun']
      have hcommitted := b.failsLike_commit.trans (CatalogBatch.failsLike_drop _)
      have hcommitted' := b'.failsLike_commit.trans (CatalogBatch.failsLike_drop _)
      exact ⟨hstep, hcommitted.symm.trans (hlike'.trans hcommitted')⟩

end SequenceUse

/-- Two sequences in step on catalogs of one kind. -/
structure StoredSequence.InStep (p q : StoredSequence) : Prop where
  sequence : p.sequence.InStep q.sequence
  catalog : ∀ faults, (p.withFaults faults).catalog.store.FailsLike
    (q.withFaults faults).catalog.store

/-- Sequences in step stay so whatever is done with both, whichever calls of the catalogs fail. -/
theorem StoredSequence.InStep.afterUses {p q : StoredSequence} (h : p.InStep q)
    (hp : p.sequence.IsRegular) (uses : List (CatalogFaults × SequenceUse)) :
    (p.afterUses uses).InStep (q.afterUses uses) := by
  induction uses generalizing p q with
  | nil => exact h
  | cons u rest ih =>
    obtain ⟨hstep, hlike⟩ := SequenceUse.inStep (p := p.withFaults u.1) (q := q.withFaults u.1)
      h.sequence hp (h.catalog u.1) u.2
    have hregular : ((p.afterUses [u]).sequence).IsRegular := regular_afterUses hp [u]
    exact ih ⟨hstep, fun faults => hlike.withFaults faults⟩ hregular

/-- Sequences in step cannot be told apart by what is done later. -/
theorem StoredSequence.InStep.observed {p q : StoredSequence} (h : p.InStep q)
    (hp : p.sequence.IsRegular) (later : List (CatalogFaults × SequenceUse)) :
    (p.afterUses later).sequence.definition = (q.afterUses later).sequence.definition ∧
      ∀ (faults : CatalogFaults) (c : SequenceCall),
        (c.action.runOn ((p.afterUses later).withFaults faults)).1 =
          (c.action.runOn ((q.afterUses later).withFaults faults)).1 := by
  have hlater := h.afterUses hp later
  refine ⟨hlater.sequence.definition, fun faults c => ?_⟩
  have hboth := c.alongside (p := (p.afterUses later).withFaults faults)
    (q := (q.afterUses later).withFaults faults) hlater.sequence (regular_afterUses hp later)
  exact hboth.answer_eq (hlater.catalog faults)

/-! ## Main result -/

theorem Sequence.IsMade.inStep {s : Sequence} (h : s.IsMade) : s.InStep s := by
  refine .refl ?_
  -- No generation was stored but the first one.
  cases h with
  | @created id name options defaultCache s hcreate =>
    unfold create at hcreate
    split at hcreate
    · obtain rfl := Except.ok.inj hcreate
      exact Nat.le_refl _
    · cases hcreate
  | @recovered d s hrecover =>
    obtain ⟨-, rfl⟩ := eq_of_recover hrecover
    exact Nat.le_refl _

namespace StoredSequence

/-- Where no call of the catalog fails, a margin is stored. -/
theorem storingAnswer_of_none (p : StoredSequence) :
    (p.withFaults .none).storingAnswer = .ok () := by
  obtain ⟨s, ⟨⟨committed, staged, backing⟩, stats⟩⟩ := p
  unfold storingAnswer
  split
  · rfl
  · cases backing <;> rfl

/-- Whatever was done with a sequence before, a call that fails has either been refused, and then it
has changed nothing, or a device has failed. Then the committed entries are as before, but the
sequence goes on as after the same call on a catalog that works: its definition is the same and every
later call answers the same, whatever else is done and whichever calls of the catalog fail. -/
theorem failed_call_goes_on {s : Sequence} (hmade : s.IsMade) (catalog : Catalog)
    (uses : List (CatalogFaults × SequenceUse)) {p : StoredSequence}
    (hp : (mk s catalog).afterUses uses = p) (faults : CatalogFaults) {c : SequenceCall}
    {err : StoreError} {failed : StoredSequence}
    (hrun : c.action.runOn (p.withFaults faults) = (.error err, failed)) :
    (err.isSequenceRefusal = true ∧ failed = p.withFaults faults) ∨
      (∃ fault, err = .device fault) ∧ failed.catalog.entries = p.catalog.entries ∧
        ∃ answer done, c.action.runOn (p.withFaults .none) = (.ok answer, done) ∧
          ∀ later : List (CatalogFaults × SequenceUse),
            (failed.afterUses later).sequence.definition =
              (done.afterUses later).sequence.definition ∧
            ∀ (faults : CatalogFaults) (c : SequenceCall),
              (c.action.runOn ((failed.afterUses later).withFaults faults)).1 =
                (c.action.runOn ((done.afterUses later).withFaults faults)).1 := by
  have hregular : p.sequence.IsRegular := hp ▸ regular_afterUses hmade.regular uses
  have hself : p.sequence.InStep p.sequence := by
    rw [← hp]
    exact (InStep.afterUses ⟨hmade.inStep, fun _ => .refl _⟩ hmade.regular uses).sequence
  -- The call is made twice from the same state, once under the faults and once without.
  have hboth := c.alongside (p := p.withFaults faults) (q := p.withFaults .none) hself hregular
  have hafter := hboth.inStep hself
  obtain ⟨hlike, hlike'⟩ := hboth.failsLike
  -- A refusal changes nothing; a call that stores nothing does not fail.
  cases hboth with
  | kept answer hfailed _ hrefusal =>
    obtain ⟨rfl, rfl⟩ := Prod.mk.inj (hrun.symm.trans hfailed)
    exact .inl ⟨hrefusal err rfl, rfl⟩
  | moved answer _ hfailed _ =>
    rw [hrun] at hfailed
    cases hfailed
  | @stored s t answer hstep _ hfailed hdone =>
    right
    -- The storing has failed here and succeeds there, and both are in step afterwards.
    have hflush := runOn_of_map_error (hfailed.symm.trans hrun)
    obtain ⟨catalog', hstored, -⟩ :=
      runOn_flushMargin_attempted ⟨t, (p.withFaults .none).catalog⟩ (t.reservationAt t.margin)
    have hworks : storingAnswer ⟨t, (p.withFaults .none).catalog⟩ = .ok () :=
      storingAnswer_of_none ⟨t, p.catalog⟩
    rw [runOn_map, hstored, hworks, ite_self] at hdone
    have hcommitted :=
      committed_of_flushMargin_error (p := ⟨s, (p.withFaults faults).catalog⟩) hflush
    have hregular' := (c.keeps (p := p.withFaults faults) hregular).1
    rw [hrun] at hafter hlike hregular'
    rw [hdone] at hafter hlike'
    refine ⟨failsByDevice_flushMargin _ _ err (by rw [hflush]), congrArg Table.values hcommitted,
      answer, _, hdone, InStep.observed ⟨hafter, fun faults' => ?_⟩ hregular'⟩
    -- Both have started from the same catalog, and faults that are set anew hide the old ones.
    have hfailed := hlike.withFaults faults'
    have hworked := hlike'.withFaults faults'
    rw [withFaults, Catalog.withFaults_withFaults] at hfailed hworked
    exact hfailed.symm.trans hworked

/-- A restart cannot be stored. The committed definition stays behind it, and the sequence goes on at
the new start in the new steps as if it were there. -/
theorem failed_call_goes_on_of_lost_restart :
    ∃ s, Sequence.create ⟨1⟩ "rows" .basic 3 = .ok s ∧ s.IsMade ∧
      ∃ p, (mk s .inMemory).afterUses [(.none, .call .next), (.none, .flush 9)] = p ∧
        ∃ failed, (SequenceCall.restart (some 50) none none (some 2)).action.runOn
            (p.withFaults .atCommit) = (.error (.device .diskFull), failed) ∧
          failed.catalog.entries = p.catalog.entries ∧ p.sequence.definition.start = 2 ∧
          failed.sequence.definition.start = 50 ∧
          ∃ answer done, (SequenceCall.restart (some 50) none none (some 2)).action.runOn
              (p.withFaults .none) = (.ok answer, done) ∧
            ∀ later : List (CatalogFaults × SequenceUse),
              (failed.afterUses later).sequence.definition =
                (done.afterUses later).sequence.definition := by
  let s := Sequence.ofDefinition
    ⟨⟨1⟩, "rows", 1, 1, 1, Int64.maxValue, 3, false, false, false⟩
  have hcreate : Sequence.create ⟨1⟩ "rows" .basic 3 = .ok s := by decide +kernel
  let uses : List (CatalogFaults × SequenceUse) := [(.none, .call .next), (.none, .flush 9)]
  let p := (mk s .inMemory).afterUses uses
  let c := SequenceCall.restart (some 50) none none (some 2)
  have hfails : (c.action.runOn (p.withFaults .atCommit)).1 = .error (.device .diskFull) := by
    decide +kernel
  have hstarts : p.sequence.definition.start = 2 ∧
      (c.action.runOn (p.withFaults .atCommit)).2.sequence.definition.start = 50 := by
    decide +kernel
  have hmade : s.IsMade := .created hcreate
  have hrun : c.action.runOn (p.withFaults .atCommit) =
      (.error (.device .diskFull), (c.action.runOn (p.withFaults .atCommit)).2) := by
    rw [← hfails]
  -- It is the catalog that has failed, so that the second case applies.
  rcases failed_call_goes_on hmade .inMemory uses (p := p) rfl .atCommit hrun with
    ⟨hrefusal, -⟩ | ⟨-, hentries, answer, done, hdone, hlater⟩
  · cases hrefusal
  · exact ⟨s, hcreate, hmade, p, rfl, _, hrun, hentries, hstarts.1, hstarts.2, answer, done, hdone,
      fun later => (hlater later).1⟩

/-- A call that changes attributes and cannot store them has changed the definition all the same, and
an exhausted sequence hands out numbers again after it. -/
theorem failed_call_changes_definition :
    let options : SequenceOptions :=
      ⟨none, none, some 3, some 1, some 3, false, false, false⟩
    ∃ s, Sequence.create ⟨1⟩ "rows" options 32 = .ok s ∧ s.IsMade ∧
      let p := (mk s .inMemory).afterUses
        [(.none, .call .next), (.none, .call .next), (.none, .call .next)]
      (∀ c ∈ [SequenceCall.restart (some 2) none none none, .setCycle true, .setCacheSize 7,
          .setBelongsToTable true],
        let (answer, failed) := c.action.runOn (p.withFaults .atCommit)
        answer = .error (.device .diskFull) ∧
          failed.sequence.definition ≠ p.sequence.definition) ∧
      ∀ c ∈ [(SequenceCall.restart (some 2) none none none, (2 : Int64)), (.setCycle true, 1)],
        let (_, failed) := c.1.action.runOn (p.withFaults .atCommit)
        (next.runOn (failed.withFaults .none)).1 = .ok c.2 ∧
          (next.runOn (p.withFaults .none)).1 = .error (.sequenceExhausted "rows") := by
  intro options
  let s := Sequence.ofDefinition ⟨⟨1⟩, "rows", 1, 1, 1, 3, 3, false, false, false⟩
  have hcreate : Sequence.create ⟨1⟩ "rows" options 32 = .ok s := by decide +kernel
  refine ⟨s, hcreate, .created hcreate, ?_⟩
  decide +kernel

end StoredSequence

end TxnStore
