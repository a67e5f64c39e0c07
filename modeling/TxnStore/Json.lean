import TxnStore.Json.Rounding

/-!
# JSON documents

A document is a tree of objects, arrays, texts, numbers, truth values and nulls. A text is missing
where the written form is well shaped but names no text, as an escape that is half a surrogate pair
does: such a text may stand where nobody reads it. An object keeps its members in the order and with
the repetitions in which they were written.
-/

namespace TxnStore

/-- A number as it was written. -/
inductive JsonNumber where
  /-- A number without fraction and exponent whose digits fit a word of 64 bits. -/
  | integer (n : Int)
  /-- Any other number, and a negative zero: the leading digits that fit, times a power of ten. -/
  | decimal (digits : Nat) (exponent : Int)
deriving DecidableEq, Repr

inductive Json where
  | null
  | bool (b : Bool)
  | number (n : JsonNumber)
  | string (s : Option String)
  | array (items : List Json)
  | object (members : List (Option String × Json))
deriving Repr, Inhabited

namespace Json

def text (s : String) : Json := string (some s)

def int (n : Int) : Json := number (.integer n)

/-- An object with distinct readable keys. -/
def struct (members : List (String × Json)) : Json := object (members.map fun m => (some m.1, m.2))

mutual
/-- How many arrays and objects lie within each other. -/
def depth : Json → Nat
  | array items => itemsDepth items + 1
  | object members => membersDepth members + 1
  | _ => 0

/-- The greatest depth of the items of an array. -/
def itemsDepth : List Json → Nat
  | [] => 0
  | j :: rest => max (depth j) (itemsDepth rest)

/-- The greatest depth of the members of an object. -/
def membersDepth : List (Option String × Json) → Nat
  | [] => 0
  | (_, j) :: rest => max (depth j) (membersDepth rest)
end

/-- How many arrays and objects may lie within each other in a document that is read. -/
def maxDepth : Nat := 127

/-- The nearest number of double precision, which has no bound here. -/
def double (n : Nat) : Nat := Rounding.hold 53 n

/-- The numbers that double precision cannot hold start here. -/
def doubleLimit : Nat := 1 <<< 1024

/-- The greatest power of ten that double precision can hold. -/
def greatestExponent : Nat := 308

/-- Whether a number can be held by a reader that does not yet know what it is for. Such a reader
holds the leading digits, the power of ten and their product in double precision. -/
def isHoldable : JsonNumber → Bool
  | .integer _ => true
  | .decimal digits exponent =>
    digits == 0 || exponent ≤ 0 || exponent ≤ greatestExponent &&
      double (double digits * double (Nat.pow 10 exponent.toNat)) < doubleLimit

mutual
/-- Whether all texts can be read and all numbers be held. -/
def isReadable : Json → Bool
  | string s => s.isSome
  | number n => isHoldable n
  | array items => itemsReadable items
  | object members => membersReadable members
  | _ => true

def itemsReadable : List Json → Bool
  | [] => true
  | j :: rest => isReadable j && itemsReadable rest

/-- Whether all members of an object and their keys are readable. -/
def membersReadable : List (Option String × Json) → Bool
  | [] => true
  | (k, j) :: rest => k.isSome && isReadable j && membersReadable rest
end

/-! ## Reading parts -/

def toBool? : Json → Option Bool
  | bool b => some b
  | _ => none

def toText? : Json → Option String
  | string s => s
  | _ => none

/-- The integer between two bounds. -/
def toInt? (least greatest : Int) : Json → Option Int
  | number (.integer n) => if least ≤ n ∧ n ≤ greatest then some n else none
  | _ => none

def toInt64? (j : Json) : Option Int64 :=
  (j.toInt? (-0x8000000000000000) 0x7fffffffffffffff).map Int64.ofInt

def toUInt32? (j : Json) : Option UInt32 :=
  (j.toInt? 0 0xffffffff).map fun n => UInt32.ofNat n.toNat

def toByte? (j : Json) : Option UInt8 := (j.toInt? 0 255).map fun n => UInt8.ofNat n.toNat

def toItems? : Json → Option (List Json)
  | array items => some items
  | _ => none

/-- The only value of a key among members with readable keys; a key that comes twice is refused. -/
def field? (name : String) (members : List (Option String × Json)) : Option (Option Json) :=
  match members.filter fun m => m.1 = some name with
  | [] => some none
  | [m] => some (some m.2)
  | _ => none

/-- The named fields of a record in their order, those that are absent as missing. A record is an
object, which may have other members, or an array of the fields in order, which may end early. -/
def fields? (names : List String) : Json → Option (List (Option Json))
  | object members =>
    if members.all fun m => m.1.isSome then names.mapM fun name => field? name members else none
  | array items =>
    if items.length ≤ names.length then
      some (items.map some ++ List.replicate (names.length - items.length) none)
    else none
  | _ => none

end Json

end TxnStore
