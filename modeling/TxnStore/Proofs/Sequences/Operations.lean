import TxnStore.Proofs.Catalog.Batches
import TxnStore.Schema

/-!
# What the operations of a sequence do

Each operation as a function of the sequence and its catalog, on a catalog whose store does not
fail. A margin that is news is stored in the entry of the sequence and counts as committed from then
on; one that is no news changes nothing.
-/

namespace TxnStore

open TxnStore.Action

namespace Sequence

def entryKey (s : Sequence) : ObjectKey := ⟨.sequence, s.name⟩

/-- The sequence with a margin staged and committed. -/
def flushed (s : Sequence) (r : Reservation) : Sequence :=
  { s with
    persistedMargin := r.margin
    flushedMargin := some r.margin
    flushedGeneration := r.generation }

/-- The sequence once a margin is stored that may be no news. -/
def settled (s : Sequence) (r : Reservation) : Sequence :=
  if s.shouldFlush r then s.flushed r else s

variable {s : Sequence} {r : Reservation}

theorem markFlushed_of_shouldFlush (h : s.shouldFlush r = true) (n : Int) :
    ({ s with persistedMargin := n } : Sequence).markFlushed r =
      { s with
        persistedMargin := n
        flushedMargin := some r.margin
        flushedGeneration := r.generation } :=
  if_pos h

theorem runOn_stage_of_not_shouldFlush (h : s.shouldFlush r = false) (b : CatalogBatch) :
    (stage r).runOn (s, b) = (.ok false, s, b) := by
  rw [stage, runOn_bind, runOn_get]
  simp [h]

theorem runOn_stage_temporary (h : s.shouldFlush r = true) (htemporary : s.temporary = true)
    (b : CatalogBatch) :
    (stage r).runOn (s, b) = (.ok true, { s with persistedMargin := r.margin }, b) := by
  rw [stage, runOn_bind, runOn_get]
  simp [h, htemporary, Except.map]

/-- Staging a margin that is news writes the definition that starts there. -/
theorem runOn_stage_persistent (h : s.shouldFlush r = true) (htemporary : s.temporary = false)
    (b : CatalogBatch) :
    (stage r).runOn (s, b) =
      let written := (CatalogBatch.write (.ofSequence (s.definitionAt r.margin))).runOn b
      (written.1.map fun _ => true, { s with persistedMargin := r.margin }, written.2) := by
  rw [stage, runOn_bind, runOn_get]
  rcases hwrite : (CatalogBatch.write (.ofSequence (s.definitionAt r.margin))).runOn b with
    ⟨err | u, b'⟩ <;>
  simp [h, htemporary, runOn_bind, hwrite, Except.map]

theorem runOn_stage (h : s.shouldFlush r = true) (htemporary : s.temporary = false)
    {b : CatalogBatch} (hreliable : b.catalog.store.backing.IsReliable) :
    (stage r).runOn (s, b) =
      (.ok true, { s with persistedMargin := r.margin },
        b.staging (.write (.ofSequence (s.definitionAt r.margin)))) := by
  rw [runOn_stage_persistent h htemporary, CatalogBatch.runOn_write hreliable.isFaultless]
  rfl

end Sequence

namespace StoredSequence

variable {p : StoredSequence} {r : Reservation}

/-! ## Storing a margin -/

theorem runOn_flushMargin_of_not_shouldFlush (h : p.sequence.shouldFlush r = false) :
    (flushMargin r).runOn p = (.ok (), p) := by
  rw [flushMargin, inBatch, runOn_mk, runOn_bind, Sequence.runOn_stage_of_not_shouldFlush h]
  rfl

theorem runOn_flushMargin_temporary (h : p.sequence.shouldFlush r = true)
    (htemporary : p.sequence.temporary = true) :
    (flushMargin r).runOn p = (.ok (), ⟨p.sequence.flushed r, p.catalog⟩) := by
  rw [flushMargin, inBatch, runOn_mk, runOn_bind, Sequence.runOn_stage_temporary h htemporary]
  have hmark := Sequence.markFlushed_of_shouldFlush h r.margin
  simp [runOn_bind, CatalogBatch.commit, hmark, Sequence.flushed, CatalogBatch.drop]

/-- The committed entries once a margin is stored. -/
def tableAfter (p : StoredSequence) (r : Reservation) : Table ObjectKey CatalogEntry :=
  if p.sequence.shouldFlush r && !p.sequence.temporary then
    p.catalog.store.committed.insert p.sequence.entryKey
      (.ofSequence (p.sequence.definitionAt r.margin))
  else p.catalog.store.committed

/-- A margin that is news is stored in the entry of the sequence, unless the sequence is temporary;
no other entry is touched. -/
theorem runOn_flushMargin_ready (hready : p.catalog.IsReady) (r : Reservation) :
    ∃ catalog, catalog.IsReady ∧ catalog.store.committed = p.tableAfter r ∧
      (flushMargin r).runOn p = (.ok (), ⟨p.sequence.settled r, catalog⟩) := by
  unfold tableAfter Sequence.settled
  -- A reservation that is no news, one of a temporary sequence, and one that is committed.
  cases h : p.sequence.shouldFlush r with
  | false => exact ⟨p.catalog, hready, by simp, by simp [runOn_flushMargin_of_not_shouldFlush h]⟩
  | true =>
    cases htemporary : p.sequence.temporary with
    | true => exact ⟨p.catalog, hready, by simp, by simp [runOn_flushMargin_temporary h htemporary]⟩
    | false =>
      obtain ⟨catalog, hcommit, hready', hcommitted⟩ := CatalogBatch.runOn_commit_staging hready
        false (.write (.ofSequence (p.sequence.definitionAt r.margin)))
      -- The batch has one write, which is committed with nothing else.
      have hstage := Sequence.runOn_stage h htemporary (b := ⟨p.catalog, false⟩) hready.reliable
      have hmark := Sequence.markFlushed_of_shouldFlush h r.margin
      refine ⟨catalog, hready', hcommitted, ?_⟩
      rw [flushMargin, inBatch, runOn_mk, runOn_bind, hstage]
      simp [runOn_bind, hcommit, hmark, Sequence.flushed, CatalogBatch.drop]

/-- A margin that is news is stored in the entry of the sequence. -/
theorem runOn_flushMargin (hready : p.catalog.IsReady) (htemporary : p.sequence.temporary = false)
    (h : p.sequence.shouldFlush r = true) :
    ∃ catalog, catalog.IsReady ∧
      catalog.entry? p.sequence.entryKey =
        some (.ofSequence (p.sequence.definitionAt r.margin)) ∧
      (flushMargin r).runOn p = (.ok (), ⟨p.sequence.flushed r, catalog⟩) := by
  obtain ⟨catalog, hready', hcommitted, hrun⟩ := runOn_flushMargin_ready hready r
  simp only [tableAfter, Sequence.settled, h, htemporary, Bool.not_false, Bool.and_self,
    if_true] at hcommitted hrun
  refine ⟨catalog, hready', ?_, hrun⟩
  rw [hready'.entry?_eq, hcommitted]
  exact Table.get?_insert_self _ _ _

theorem isReady_flushMargin (hready : p.catalog.IsReady) (r : Reservation) :
    ((flushMargin r).runOn p).2.catalog.IsReady := by
  obtain ⟨catalog, hready', -, hrun⟩ := runOn_flushMargin_ready hready r
  rw [hrun]
  exact hready'

/-! ## The operations -/

theorem runOn_next (p : StoredSequence) :
    next.runOn p =
      match p.sequence.draw with
      | .error err => (.error err, p)
      | .ok d =>
        match d.reservation with
        | none => (.ok (saturate d.number), ⟨d.sequence, p.catalog⟩)
        | some r =>
          (((flushMargin r).runOn ⟨d.sequence, p.catalog⟩).1.map fun _ => saturate d.number,
            ((flushMargin r).runOn ⟨d.sequence, p.catalog⟩).2) := by
  rw [next, runOn_bind, runOn_get]
  simp only
  -- The number is decided by the draw, and only then is a margin stored.
  cases hd : p.sequence.draw with
  | error err => rfl
  | ok d =>
    simp only [runOn_bind, runOn_ofExcept, modifySequence, runOn_modify]
    cases d.reservation with
    | none => rfl
    | some r =>
      rcases hf : (flushMargin r).runOn ⟨d.sequence, p.catalog⟩ with ⟨err | u, p'⟩ <;>
        simp [hf, Except.map]

theorem isReady_next (hready : p.catalog.IsReady) : (next.runOn p).2.catalog.IsReady := by
  rw [runOn_next]
  cases p.sequence.draw with
  | error err => exact hready
  | ok d =>
    simp only
    cases d.reservation with
    | none => exact hready
    | some r => exact isReady_flushMargin (p := ⟨d.sequence, p.catalog⟩) hready r

theorem runOn_flush (target : Int64) (p : StoredSequence) :
    (flush target).runOn p = (flushMargin (p.sequence.reservationAt target.toInt)).runOn p := by
  rw [flush, runOn_bind, runOn_get]

theorem runOn_alter (f : Sequence → Sequence) (p : StoredSequence) :
    (alter f).runOn p =
      (flushMargin ⟨(f p.sequence).margin, p.sequence.generation + 1⟩).runOn
        ⟨{ f p.sequence with generation := p.sequence.generation + 1 }, p.catalog⟩ := by
  rw [alter, runOn_bind, modifySequence, runOn_modify]
  simp only [runOn_bind, runOn_get]
  rfl

theorem runOn_releaseReserved (p : StoredSequence) :
    releaseReserved.runOn p =
      if p.sequence.margin ≠ p.sequence.value then
        (alter fun s => { s with margin := s.value }).runOn p
      else (.ok (), p) := by
  rw [releaseReserved, runOn_bind, runOn_get]
  simp only
  split <;> rfl

end StoredSequence

end TxnStore
