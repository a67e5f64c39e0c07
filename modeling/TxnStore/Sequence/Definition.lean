import TxnStore.Error

/-!
# Definitions of sequences

A sequence hands out numbers from a start in equal steps between two bounds. Its definition is what
the catalog keeps: the number that it hands out next, its step and its bounds, how many numbers it
reserves at a time, and what happens at the bound. Creating a sequence from options fills in what is
not given; the bounds that are filled in depend on the direction and on the start.
-/

namespace TxnStore

/-- The numbers reserved at a time where nothing else is said. -/
def defaultCacheSize : Int64 := 32

def leastWord : Int := -0x8000000000000000

def greatestWord : Int := 0x7fffffffffffffff

/-- The nearest signed word. -/
def saturate (n : Int) : Int64 := Int64.ofInt (max leastWord (min n greatestWord))

/-- The lower bound where none is given. -/
def defaultMin (start : Option Int64) (increment : Int64) : Int64 :=
  if 0 ≤ increment.toInt then
    match start with
    | some s => if s.toInt < 1 then s else 1
    | none => 1
  else Int64.minValue

/-- The upper bound where none is given. -/
def defaultMax (start : Option Int64) (increment : Int64) : Int64 :=
  if 0 ≤ increment.toInt then Int64.maxValue
  else
    match start with
    | some s => if -1 < s.toInt then s else -1
    | none => -1

/-- Whether a start, bounds and a step make a sequence: the start lies within the bounds, and a step
leads from somewhere within them to somewhere else. -/
def AttributesValid (start min max increment : Int64) : Prop :=
  min.toInt ≤ start.toInt ∧ start.toInt ≤ max.toInt ∧ min.toInt < max.toInt ∧
    increment.toInt ≠ 0 ∧ (increment.toInt.natAbs : Int) < max.toInt - min.toInt

instance (start min max increment : Int64) :
    Decidable (AttributesValid start min max increment) := by
  unfold AttributesValid
  infer_instance

/-- What the catalog keeps of a sequence. -/
structure SequenceDefinition where
  id : ObjectId
  name : String
  /-- The number handed out next, or the nearest signed word where that lies beyond. -/
  start : Int64
  increment : Int64
  minValue : Int64
  maxValue : Int64
  cacheSize : Int64
  /-- Whether the sequence starts over at its bound. -/
  cycle : Bool
  /-- Whether the sequence numbers the rows of a table. -/
  belongsToTable : Bool
  /-- Whether the next number lies beyond the signed words. -/
  exhausted : Bool
deriving DecidableEq, Repr

/-- What may be said when a sequence is created. -/
structure SequenceOptions where
  start : Option Int64
  increment : Option Int64
  cacheSize : Option Int64
  minValue : Option Int64
  maxValue : Option Int64
  cycle : Bool
  belongsToTable : Bool
  /-- Whether the sequence stays out of the catalog. -/
  temporary : Bool
deriving DecidableEq, Repr

/-- Options that say nothing. -/
def SequenceOptions.basic : SequenceOptions :=
  ⟨none, none, none, none, none, false, false, false⟩

namespace SequenceDefinition

/-- The number handed out next, which may lie beyond the signed words. -/
def nextValue (d : SequenceDefinition) : Int :=
  if d.exhausted then d.start.toInt + d.increment.toInt else d.start.toInt

/-! ## Statements -/

def isNameStart (c : Char) : Bool := c.isAlpha || c == '_'

def isNamePart (c : Char) : Bool := c.isAlphanum || c == '_'

/-- Whether a name is plain: ASCII letters, digits and underscores, and no digit at its start. -/
def isPlainName (cs : List Char) : Bool := cs.head?.any isNameStart && cs.all isNamePart

/-- A character within a quoted name; a quote is written twice. -/
def quoteChar (c : Char) : List Char := if c = '"' then ['"', '"'] else [c]

/-- A name in a statement: as it stands if it is plain, else between quotes. -/
def identifier (name : String) : List Char :=
  if isPlainName name.toList then name.toList
  else '"' :: name.toList.flatMap quoteChar ++ ['"']

/-- A clause with a number, which is left out where it says what holds anyway. -/
def clause (word : String) (n default : Int64) : List Char :=
  if n = default then [] else word.toList ++ (toString n.toInt).toList

def flagClause (word : String) (b : Bool) : List Char := if b then word.toList else []

/-- The statement that creates the sequence, without the clauses that hold anyway. -/
def createSqlChars (d : SequenceDefinition) : List Char :=
  "CREATE SEQUENCE ".toList ++ identifier d.name ++ " START WITH ".toList ++
    (toString d.start.toInt).toList ++ clause " INCREMENT BY " d.increment 1 ++
    clause " MINVALUE " d.minValue (defaultMin (some d.start) d.increment) ++
    clause " MAXVALUE " d.maxValue (defaultMax (some d.start) d.increment) ++
    flagClause " CYCLE" d.cycle ++ clause " CACHE " d.cacheSize defaultCacheSize ++
    flagClause " BELONGS_TO_TABLE" d.belongsToTable

/-- The text of the statement that creates the sequence. -/
def createSql (d : SequenceDefinition) : String := String.ofList d.createSqlChars

/-- The statement that drops the sequence; that of a table is dropped with its table only. -/
def dropSql? (d : SequenceDefinition) : Option String :=
  if d.belongsToTable then none
  else some (String.ofList ("DROP SEQUENCE IF EXISTS ".toList ++ identifier d.name))

end SequenceDefinition

namespace SequenceOptions

/-- The definition that options come to; a cache size below one counts as one. -/
def definition (o : SequenceOptions) (id : ObjectId) (name : String) (defaultCache : Int64) :
    Except StoreError SequenceDefinition :=
  let increment := o.increment.getD 1
  let minValue := o.minValue.getD (defaultMin o.start increment)
  let maxValue := o.maxValue.getD (defaultMax o.start increment)
  let start := o.start.getD (if 0 ≤ increment.toInt then minValue else maxValue)
  if AttributesValid start minValue maxValue increment then
    .ok
      { id, name, start, increment, minValue, maxValue
        cacheSize := Max.max (o.cacheSize.getD defaultCache) 1
        cycle := o.cycle
        belongsToTable := o.belongsToTable
        exhausted := false }
  else .error (.sequenceAttributes name start minValue maxValue increment)

end SequenceOptions

end TxnStore
