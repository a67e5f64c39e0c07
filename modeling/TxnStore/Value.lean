/-!
# Values

The data that a map holds as keys and as payloads: a null, a truth value, a signed 64-bit integer, a
text, a run of bytes, or a row of values. Values are ordered by kind first and then by content, rows
lexicographically. Equality is decided by comparing the two trees (`Value.same_iff`).
-/

namespace TxnStore

/-- A value that a map can hold. -/
inductive Value where
  | null
  | bool (b : Bool)
  | int (n : Int64)
  | text (s : String)
  | bytes (bs : List UInt8)
  | row (columns : List Value)
deriving Repr, Inhabited

/-- The kinds of values, in ascending order. -/
inductive ValueKind where
  | null | bool | int | text | bytes | row
deriving DecidableEq, Repr

namespace ValueKind

def name : ValueKind → String
  | null => "null"
  | bool => "bool"
  | int => "int"
  | text => "text"
  | bytes => "bytes"
  | row => "row"

end ValueKind

namespace Value

def kind : Value → ValueKind
  | null => .null
  | bool _ => .bool
  | int _ => .int
  | text _ => .text
  | bytes _ => .bytes
  | row _ => .row

/-- The integer, if the value is one. -/
def asInt? : Value → Option Int64
  | int n => some n
  | _ => none

def asText? : Value → Option String
  | text s => some s
  | _ => none

/-! ## Equality -/

mutual
/-- Whether two values are the same tree. -/
def same : Value → Value → Bool
  | null, null => true
  | bool a, bool b => a == b
  | int a, int b => a == b
  | text a, text b => a == b
  | bytes a, bytes b => a == b
  | row a, row b => sameRows a b
  | _, _ => false

/-- Whether two rows hold the same columns. -/
def sameRows : List Value → List Value → Bool
  | [], [] => true
  | a :: as, b :: bs => same a b && sameRows as bs
  | _, _ => false
end

mutual
/-- Values are the same tree exactly if they are equal. -/
theorem same_iff : (a b : Value) → (same a b = true ↔ a = b)
  | null, b => by cases b <;> simp [same]
  | bool a, b => by cases b <;> simp [same]
  | int a, b => by cases b <;> simp [same]
  | text a, b => by cases b <;> simp [same]
  | bytes a, b => by cases b <;> simp [same]
  | row a, b => by cases b <;> simp [same, sameRows_iff a]

theorem sameRows_iff : (a b : List Value) → (sameRows a b = true ↔ a = b)
  | [], b => by cases b <;> simp [sameRows]
  | a :: as, b => by
    cases b with
    | nil => simp [sameRows]
    | cons b bs => simp [sameRows, same_iff a b, sameRows_iff as bs]
end

instance : DecidableEq Value := fun a b => decidable_of_iff _ (same_iff a b)

/-! ## Order -/

/-- The place of a kind in the order of kinds. -/
def rank : Value → Nat
  | null => 0
  | bool _ => 1
  | int _ => 2
  | text _ => 3
  | bytes _ => 4
  | row _ => 5

mutual
/-- Compares two values: by kind, then by content. -/
def compare : Value → Value → Ordering
  | null, null => .eq
  | bool a, bool b => Ord.compare a b
  | int a, int b => Ord.compare a.toInt b.toInt
  | text a, text b => Ord.compare a b
  | bytes a, bytes b => Ord.compare a b
  | row a, row b => compareRows a b
  | a, b => Ord.compare a.rank b.rank

/-- Compares two rows column by column; a row that ends first is the lesser. -/
def compareRows : List Value → List Value → Ordering
  | [], [] => .eq
  | [], _ :: _ => .lt
  | _ :: _, [] => .gt
  | a :: as, b :: bs => (compare a b).then (compareRows as bs)
end

instance : Ord Value := ⟨Value.compare⟩

end Value

end TxnStore
