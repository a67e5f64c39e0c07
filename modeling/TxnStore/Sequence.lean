import TxnStore.Catalog

/-!
# Sequences

A sequence hands out numbers and stores in the catalog, from time to time, a number that it has not
yet reached: its margin. All numbers before the margin are reserved, so that a sequence that is
rebuilt from the catalog starts at the margin and repeats nothing. When the numbers reserved are
used up, the margin is moved on by as many steps as the sequence reserves at a time.

A change of the attributes, a return to the first bound and a clean close set the margin anew. Each
such change starts a new generation, and a margin of an older generation is never stored over a
newer one.
-/

namespace TxnStore

/-- A sequence in use. -/
structure Sequence where
  id : ObjectId
  name : String
  /-- Whether the sequence stays out of the catalog. -/
  temporary : Bool
  /-- The number handed out next. It may lie one step beyond a bound, hence beyond the words. -/
  value : Int
  /-- The end of the numbers reserved. -/
  margin : Int
  increment : Int64
  minValue : Int64
  maxValue : Int64
  cacheSize : Int64
  cycle : Bool
  belongsToTable : Bool
  /-- The margin staged last. -/
  persistedMargin : Int
  /-- The margin committed last. -/
  flushedMargin : Option Int
  /-- How often the margin was set anew. -/
  generation : Nat
  /-- The generation of the margin committed last. -/
  flushedGeneration : Nat
deriving DecidableEq, Repr

/-- A margin that is to be stored, with its generation. -/
structure Reservation where
  margin : Int
  generation : Nat
deriving DecidableEq, Repr

/-- A number drawn from a sequence, the sequence after it, and the margin to store, if one is. -/
structure Draw where
  number : Int
  sequence : Sequence
  reservation : Option Reservation
deriving DecidableEq, Repr

/-- A sequence with the catalog that keeps its margin. -/
structure StoredSequence where
  sequence : Sequence
  catalog : Catalog

namespace Sequence

/-! ## Making sequences -/

/-- The sequence of a definition, before anything of it is known to be stored. -/
def ofDefinition (d : SequenceDefinition) : Sequence :=
  { id := d.id
    name := d.name
    temporary := false
    value := d.nextValue
    margin := d.nextValue
    increment := d.increment
    minValue := d.minValue
    maxValue := d.maxValue
    cacheSize := max d.cacheSize 1
    cycle := d.cycle
    belongsToTable := d.belongsToTable
    persistedMargin := d.nextValue
    flushedMargin := none
    generation := 0
    flushedGeneration := 0 }

/-- A new sequence; nothing of it is stored yet. -/
def create (id : ObjectId) (name : String) (options : SequenceOptions) (defaultCache : Int64) :
    Except StoreError Sequence :=
  match options.definition id name defaultCache with
  | .ok d => .ok { ofDefinition d with temporary := options.temporary }
  | .error e => .error e

/-- Whether a stored definition can be taken up: the start does not lie before the first bound, and
the bounds and the step make a sequence. The start may lie beyond the last bound. -/
def Recoverable (d : SequenceDefinition) : Prop :=
  if 0 < d.increment.toInt then
    d.minValue.toInt ≤ d.start.toInt ∧
      AttributesValid d.minValue d.minValue d.maxValue d.increment
  else
    d.start.toInt ≤ d.maxValue.toInt ∧
      AttributesValid d.maxValue d.minValue d.maxValue d.increment

instance (d : SequenceDefinition) : Decidable (Recoverable d) := by
  unfold Recoverable
  infer_instance

def recover (d : SequenceDefinition) : Except StoreError Sequence :=
  if Recoverable d then .ok { ofDefinition d with flushedMargin := some d.nextValue }
  else .error (.sequenceAttributes d.name d.start d.minValue d.maxValue d.increment)

/-! ## Views -/

/-- Whether the sequence goes up. -/
def ascending (s : Sequence) : Bool := 0 < s.increment.toInt

def definitionAt (s : Sequence) (start : Int) : SequenceDefinition :=
  { id := s.id
    name := s.name
    start := saturate start
    increment := s.increment
    minValue := s.minValue
    maxValue := s.maxValue
    cacheSize := s.cacheSize
    cycle := s.cycle
    belongsToTable := s.belongsToTable
    exhausted := if s.ascending then start > greatestWord else start < leastWord }

/-- The definition that starts at the number handed out next. -/
def definition (s : Sequence) : SequenceDefinition := s.definitionAt s.value

/-- The number handed out last. -/
def current (s : Sequence) : Int64 := saturate (s.value - s.increment.toInt)

def debugText (s : Sequence) : String :=
  "Sequence \x7b id: ObjectId(" ++ s.id.text ++ "), name: " ++ Quoted.text s.name ++ ", value: " ++
    toString s.value ++ ", value_with_margin: " ++ toString s.margin ++ ", increment: " ++
    toString s.increment.toInt ++ ", .. \x7d"

/-! ## Drawing -/

/-- Whether the numbers reserved are used up. -/
def isUsedUp (s : Sequence) : Bool := if s.ascending then s.margin ≤ s.value else s.value ≤ s.margin

/-- Whether the number handed out next lies beyond the last bound. -/
def isPastBound (s : Sequence) : Bool :=
  if s.ascending then s.maxValue.toInt < s.value else s.value < s.minValue.toInt

/-- The end of the numbers reserved when reserving starts at a number. -/
def reserveFrom (s : Sequence) (n : Int) : Int := n + s.increment.toInt * s.cacheSize.toInt

/-- The first number of a round. -/
def firstBound (s : Sequence) : Int := if s.ascending then s.minValue.toInt else s.maxValue.toInt

/-- Draws a number and says which margin is to be stored. -/
def draw (s : Sequence) : Except StoreError Draw :=
  if s.isPastBound then
    if s.cycle then
      -- The margin of the last round says nothing about this one: reserving starts afresh.
      let n := s.firstBound
      let margin := s.reserveFrom n
      .ok
        { number := n
          sequence :=
            { s with value := n + s.increment.toInt, margin, generation := s.generation + 1 }
          reservation := some ⟨margin, s.generation + 1⟩ }
    else .error (.sequenceExhausted s.name)
  else if s.isUsedUp then
    -- The margin is not kept within the bounds, nor within the words.
    let margin := s.reserveFrom s.margin
    .ok
      { number := s.value
        sequence := { s with value := s.value + s.increment.toInt, margin }
        reservation := some ⟨margin, s.generation⟩ }
  else
    .ok
      { number := s.value
        sequence := { s with value := s.value + s.increment.toInt }
        reservation := none }

/-! ## Storing the margin -/

/-- Whether a margin is news to the catalog: it is of a later generation, or of the same and further
on than the one committed last. -/
def shouldFlush (s : Sequence) (r : Reservation) : Bool :=
  if r.generation ≠ s.flushedGeneration then s.flushedGeneration < r.generation
  else
    match s.flushedMargin with
    | none => true
    | some last => if s.ascending then last < r.margin else r.margin < last

/-- The sequence once a margin counts as committed. -/
def markFlushed (s : Sequence) (r : Reservation) : Sequence :=
  if s.shouldFlush r then
    { s with flushedGeneration := r.generation, flushedMargin := some r.margin }
  else s

/-- The margin of the current generation at a given number. -/
def reservationAt (s : Sequence) (margin : Int) : Reservation := ⟨margin, s.generation⟩

/-- Stages a margin in a batch and says whether it was news. -/
def stage (r : Reservation) : Action (Sequence × CatalogBatch) Bool := do
  let (s, b) ← get
  if s.shouldFlush r then
    set ({ s with persistedMargin := r.margin }, b)
    if !s.temporary then
      Action.onSecond
        (CatalogBatch.write (.ofSequence (s.definitionAt r.margin)))
    return true
  else return false

/-- Stages a margin in a batch that the caller commits, and takes it for committed. -/
def flushWith (margin : Int) : Action (Sequence × CatalogBatch) Unit := do
  let r := (← get).1.reservationAt margin
  if ← stage r then modify fun (s, b) => (s.markFlushed r, b)

end Sequence

namespace StoredSequence

/-- Changes the sequence alone. -/
def modifySequence (f : Sequence → Sequence) : Action StoredSequence Unit :=
  modify fun p => { p with sequence := f p.sequence }

/-- Runs a batch of the catalog to its end and drops what it leaves staged. -/
def inBatch {α : Type} (a : Action (Sequence × CatalogBatch) α) : Action StoredSequence α :=
  Action.mk fun p =>
    let (r, s, b) := a.runOn (p.sequence, ⟨p.catalog, false⟩)
    (r, ⟨s, b.drop⟩)

def flushMargin (r : Reservation) : Action StoredSequence Unit :=
  inBatch do
    if ← Sequence.stage r then
      -- If the commit fails, the margin is not marked, and the next one is news again.
      Action.onSecond CatalogBatch.commit
      modify fun (s, b) => (s.markFlushed r, b)

/-- Hands out the next number. -/
def next : Action StoredSequence Int64 := do
  let d ← Action.ofExcept (← get).sequence.draw
  -- The number is spent before its margin is stored: if that fails it is lost, not repeated.
  modifySequence fun _ => d.sequence
  match d.reservation with
  | some r => flushMargin r
  | none => pure ()
  return saturate d.number

/-- Asks for numbers one after the other, whether or not one comes. -/
def draws : Nat → Action StoredSequence (List (Except StoreError Int64))
  | 0 => return []
  | n + 1 => do
    let r ← next.attempt
    return r :: (← draws n)

/-- Changes attributes, starts a new generation and stores the margin under the new attributes. -/
def alter (f : Sequence → Sequence) : Action StoredSequence Unit := do
  modifySequence fun s => { f s with generation := s.generation + 1 }
  let s := (← get).sequence
  flushMargin (s.reservationAt s.margin)

/-- Sets whether the sequence starts over at its bound. -/
def setCycle (cycle : Bool) : Action StoredSequence Unit := alter fun s => { s with cycle }

/-- Sets how many numbers are reserved at a time, at least one. -/
def setCacheSize (size : Int64) : Action StoredSequence Unit :=
  alter fun s => { s with cacheSize := max size 1 }

/-- Sets whether the sequence numbers the rows of a table. -/
def setBelongsToTable (belongs : Bool) : Action StoredSequence Unit :=
  alter fun s => { s with belongsToTable := belongs }

/-- The number handed out next as a word, if it is one. -/
def wordOf? (n : Int) : Option Int64 :=
  if leastWord ≤ n ∧ n ≤ greatestWord then some (Int64.ofInt n) else none

/-- Replaces start, bounds and step together, and starts over at the new start. What is not given
stays; a combination that makes no sequence is refused and changes nothing. -/
def restart (start minValue maxValue increment : Option Int64) : Action StoredSequence Unit := do
  let s := (← get).sequence
  let min := minValue.getD s.minValue
  let max := maxValue.getD s.maxValue
  let step := increment.getD s.increment
  match start.or (wordOf? s.value) with
  | none => throw (.sequenceAttributes s.name (saturate s.value) min max step)
  | some first =>
    if AttributesValid first min max step then
      alter fun s =>
        { s with
          value := first.toInt
          margin := first.toInt
          minValue := min
          maxValue := max
          increment := step }
    else throw (.sequenceAttributes s.name first min max step)

/-- Stores a margin of the current generation. -/
def flush (target : Int64) : Action StoredSequence Unit := do
  flushMargin ((← get).sequence.reservationAt target.toInt)

/-- Gives up the numbers reserved but not handed out, and stores the number handed out next. -/
def releaseReserved : Action StoredSequence Unit := do
  let s := (← get).sequence
  if s.margin ≠ s.value then alter fun s => { s with margin := s.value }

/-- Closes the sequence so that it goes on without a gap when it is taken up again. -/
def close : Action StoredSequence Unit := releaseReserved

end StoredSequence

end TxnStore
