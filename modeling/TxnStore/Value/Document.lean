import TxnStore.Json
import TxnStore.Value

/-!
# Values in documents

In a document a value is an object with one member, whose key names the kind and whose value is the
content; a null is the bare name of its kind. Reading also takes the null as an object.
-/

namespace TxnStore.Value

mutual
/-- The document of a value. -/
def toJson : Value → Json
  | null => .text "Null"
  | bool b => .struct [("Bool", .bool b)]
  | int n => .struct [("Int", .int n.toInt)]
  | text s => .struct [("Text", .text s)]
  | bytes bs => .struct [("Bytes", .array (bs.map fun b => .int b.toNat))]
  | row columns => .struct [("Row", .array (columnsToJson columns))]

/-- The documents of columns. -/
def columnsToJson : List Value → List Json
  | [] => []
  | v :: rest => toJson v :: columnsToJson rest
end

def bytesOfJson? : Json → Option (List UInt8)
  | .array items => items.mapM Json.toByte?
  | _ => none

mutual
/-- The value of a document, whatever its depth. -/
def ofTree? : Json → Option Value
  | .string (some "Null") => some null
  | .object [(some "Null", .null)] => some null
  | .object [(some "Bool", .bool b)] => some (bool b)
  | .object [(some "Int", j)] => j.toInt64?.map int
  | .object [(some "Text", .string s)] => s.map text
  | .object [(some "Bytes", j)] => (bytesOfJson? j).map bytes
  | .object [(some "Row", .array items)] => (columnsOfTrees? items).map row
  | _ => none

/-- The columns of documents. -/
def columnsOfTrees? : List Json → Option (List Value)
  | [] => some []
  | j :: rest =>
    match ofTree? j, columnsOfTrees? rest with
    | some v, some vs => some (v :: vs)
    | _, _ => none
end

/-- The value of a document that is not too deep. -/
def ofJson? (j : Json) : Option Value := if j.depth ≤ Json.maxDepth then ofTree? j else none

end TxnStore.Value
