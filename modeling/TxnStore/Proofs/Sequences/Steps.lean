import TxnStore.Proofs.Sequences.Calls

/-!
# Steps of a sequence

Every step of a sequence, a margin that the caller names among them, first moves the sequence alone
and then goes to the catalog with one margin at most. The first part does not look at the catalog,
and so the sequence alone decides what a step writes, whatever the catalog has by then.
-/

namespace TxnStore

open TxnStore.Action

/-- A step of a sequence: a call, or a margin that the caller names. -/
inductive SequenceStep where
  | call (c : SequenceCall)
  | flush (target : Int64)
deriving DecidableEq, Repr

namespace Sequence

/-- The sequence with its attributes changed, and the margin that is stored under the new ones. -/
def renewed (s t : Sequence) : Sequence × Option Reservation :=
  ({ t with generation := s.generation + 1 }, some ⟨t.margin, s.generation + 1⟩)

end Sequence

/-- What a call makes of the sequence, and the margin that it goes to the catalog with. -/
def SequenceCall.moves (s : Sequence) : SequenceCall → Sequence × Option Reservation
  | next =>
    match s.draw with
    | .error _ => (s, none)
    | .ok d => (d.sequence, d.reservation)
  | restart start minValue maxValue increment =>
    let min := minValue.getD s.minValue
    let max := maxValue.getD s.maxValue
    let step := increment.getD s.increment
    match start.or (StoredSequence.wordOf? s.value) with
    | none => (s, none)
    | some first =>
      if AttributesValid first min max step then s.renewed (s.restarted first min max step)
      else (s, none)
  | setCycle cycle => s.renewed { s with cycle }
  | setCacheSize size => s.renewed { s with cacheSize := max size 1 }
  | setBelongsToTable belongs => s.renewed { s with belongsToTable := belongs }
  | releaseReserved | close =>
    if s.margin ≠ s.value then s.renewed { s with margin := s.value } else (s, none)

namespace StoredSequence

/-- The sequence and its catalog once a margin is stored, if there is one. -/
def storing (p : StoredSequence) : Option Reservation → StoredSequence
  | none => p
  | some r => ((flushMargin r).runOn p).2

theorem storing_of_not_shouldFlush {s : Sequence} {r : Reservation} (h : s.shouldFlush r = false)
    (catalog : Catalog) : storing ⟨s, catalog⟩ (some r) = ⟨s, catalog⟩ := by
  rw [storing, runOn_flushMargin_of_not_shouldFlush (p := ⟨s, catalog⟩) h]

end StoredSequence

namespace SequenceCall

theorem runOn_moves_releaseReserved (s : Sequence) (catalog : Catalog) :
    (releaseReserved.action.runOn ⟨s, catalog⟩).2 =
      StoredSequence.storing ⟨(releaseReserved.moves s).1, catalog⟩
        (releaseReserved.moves s).2 := by
  rw [action, runOn_numberless, StoredSequence.runOn_releaseReserved, moves]
  split
  · rw [StoredSequence.runOn_alter]
    rfl
  · rfl

/-- A call moves the sequence and then stores the margin that it has come to, if any. -/
theorem runOn_moves (c : SequenceCall) (s : Sequence) (catalog : Catalog) :
    (c.action.runOn ⟨s, catalog⟩).2 =
      StoredSequence.storing ⟨(c.moves s).1, catalog⟩ (c.moves s).2 := by
  -- A case per call: what it moves is told apart from what it stores.
  cases c with
  | next =>
    rw [action, runOn_map, StoredSequence.runOn_next, moves]
    cases s.draw with
    | error err => rfl
    | ok d =>
      dsimp only
      cases d.reservation <;> rfl
  | restart start minValue maxValue increment =>
    rw [action, runOn_numberless, StoredSequence.restart, runOn_bind, runOn_get]
    simp only [moves]
    cases start.or (StoredSequence.wordOf? s.value) with
    | none => rfl
    | some first =>
      dsimp only
      split
      · rw [StoredSequence.runOn_alter]
        rfl
      · rfl
  | setCycle cycle =>
    rw [action, runOn_numberless, StoredSequence.setCycle, StoredSequence.runOn_alter]
    rfl
  | setCacheSize size =>
    rw [action, runOn_numberless, StoredSequence.setCacheSize, StoredSequence.runOn_alter]
    rfl
  | setBelongsToTable belongs =>
    rw [action, runOn_numberless, StoredSequence.setBelongsToTable, StoredSequence.runOn_alter]
    rfl
  | releaseReserved => exact runOn_moves_releaseReserved s catalog
  | close => exact runOn_moves_releaseReserved s catalog

/-- A call draws a number, or it moves nothing, or it changes attributes and stores the margin. -/
theorem moves_cases (c : SequenceCall) (s : Sequence) :
    c = .next ∨ c.moves s = (s, none) ∨ ∃ t, s.Alters t ∧ c.moves s = s.renewed t := by
  -- All calls but a draw leave the sequence or replace it by an alteration.
  cases c with
  | next => exact .inl rfl
  | restart start minValue maxValue increment =>
    right
    simp only [moves]
    cases start.or (StoredSequence.wordOf? s.value) with
    | none => exact .inl rfl
    | some first =>
      dsimp only
      split
      · next hvalid => exact .inr ⟨_, ⟨rfl, fun h => h.restarted hvalid, .inl rfl⟩, rfl⟩
      · exact .inl rfl
  | setCycle cycle =>
    exact .inr (.inr ⟨{ s with cycle },
      ⟨rfl, fun h => ⟨h.moves, h.step, h.cache, h.begun⟩, .inr rfl⟩, rfl⟩)
  | setCacheSize size =>
    exact .inr (.inr ⟨{ s with cacheSize := max size 1 },
      ⟨rfl, fun h => ⟨h.moves, h.step, one_le_toInt_max size, h.begun⟩, .inr rfl⟩, rfl⟩)
  | setBelongsToTable belongs =>
    exact .inr (.inr ⟨{ s with belongsToTable := belongs },
      ⟨rfl, fun h => ⟨h.moves, h.step, h.cache, h.begun⟩, .inr rfl⟩, rfl⟩)
  -- Releasing moves the margin back to the cursor, where anything is reserved.
  | releaseReserved | close =>
    right
    rw [moves]
    split
    · exact .inr ⟨{ s with margin := s.value },
        ⟨rfl, fun h => ⟨h.moves, h.step, h.cache, h.begun⟩, .inl rfl⟩, rfl⟩
    · exact .inl rfl

end SequenceCall

namespace SequenceStep

def action : SequenceStep → Action StoredSequence (Option Int64)
  | call c => c.action
  | flush target => (StoredSequence.flush target).numberless

/-- What a step makes of the sequence, and the margin that it goes to the catalog with. -/
def moves (s : Sequence) : SequenceStep → Sequence × Option Reservation
  | call c => c.moves s
  | flush target => (s, some (s.reservationAt target.toInt))

theorem runOn_moves (step : SequenceStep) (s : Sequence) (catalog : Catalog) :
    (step.action.runOn ⟨s, catalog⟩).2 =
      StoredSequence.storing ⟨(step.moves s).1, catalog⟩ (step.moves s).2 := by
  cases step with
  | call c => exact c.runOn_moves s catalog
  | flush target =>
    rw [action, runOn_numberless, StoredSequence.runOn_flush]
    rfl

/-- What becomes of the sequence and its catalog does not depend on the answer that is given. -/
theorem state_next (p : StoredSequence) :
    (StoredSequence.next.runOn p).2 = ((call .next).action.runOn p).2 := by
  rw [action, SequenceCall.action, runOn_map]

theorem state_close (p : StoredSequence) :
    (StoredSequence.close.runOn p).2 = ((call .close).action.runOn p).2 := by
  rw [action, SequenceCall.action, runOn_numberless]

end SequenceStep

/-- A step changes neither the name of the sequence nor where it is kept. -/
theorem SequenceStep.moves_keep (step : SequenceStep) (s : Sequence) :
    (step.moves s).1.name = s.name ∧ (step.moves s).1.temporary = s.temporary := by
  -- No call touches the name, nor whether the sequence is temporary.
  cases step with
  | flush target => exact ⟨rfl, rfl⟩
  | call c =>
    rcases c.moves_cases s with rfl | hidle | ⟨t, ⟨hsame, -, -⟩, hmoves⟩
    · rw [moves, SequenceCall.moves]
      rcases s.draw_cases with ⟨-, -, hdraw⟩ | ⟨-, -, hdraw⟩ | ⟨-, hdraw⟩
      all_goals
        rw [hdraw]
        exact ⟨rfl, rfl⟩
    · rw [moves, hidle]
      exact ⟨rfl, rfl⟩
    · rw [moves, hmoves]
      show t.name = s.name ∧ t.temporary = s.temporary
      rw [hsame]
      exact ⟨rfl, rfl⟩

/-- A temporary sequence leaves its catalog alone. -/
theorem StoredSequence.storing_temporary {s : Sequence} (h : s.temporary = true)
    (r : Option Reservation) (catalog : Catalog) :
    (storing ⟨s, catalog⟩ r).catalog = catalog ∧
      (storing ⟨s, catalog⟩ r).sequence.temporary = true := by
  cases r with
  | none => exact ⟨rfl, h⟩
  | some r =>
    cases hnews : s.shouldFlush r with
    | false =>
      rw [storing_of_not_shouldFlush hnews]
      exact ⟨rfl, h⟩
    | true =>
      rw [storing, runOn_flushMargin_temporary (p := ⟨s, catalog⟩) hnews h]
      exact ⟨rfl, h⟩

/-- The sequence after steps one after the other, whatever they answer. -/
def StoredSequence.afterSteps (p : StoredSequence) (steps : List SequenceStep) : StoredSequence :=
  steps.foldl (fun p step => (step.action.runOn p).2) p

theorem StoredSequence.afterSteps_temporary {p : StoredSequence} (h : p.sequence.temporary = true)
    (steps : List SequenceStep) : (p.afterSteps steps).catalog = p.catalog := by
  induction steps generalizing p with
  | nil => rfl
  | cons step rest ih =>
    have hmoved := (step.moves_keep p.sequence).2.trans h
    obtain ⟨hcatalog, htemporary⟩ :=
      storing_temporary hmoved (step.moves p.sequence).2 p.catalog
    rw [← step.runOn_moves p.sequence p.catalog] at hcatalog htemporary
    exact (ih htemporary).trans hcatalog

end TxnStore
