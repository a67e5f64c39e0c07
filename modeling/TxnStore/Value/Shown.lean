import TxnStore.Text.Quoted
import TxnStore.Value

/-!
# Values in debugging reports

A debugging report shows a value by the name of its kind with the content behind it, between
parentheses; lists stand between brackets, with a comma and a blank between the items.
-/

namespace TxnStore.Value

mutual
def shown : Value → String
  | null => "Null"
  | bool b => "Bool(" ++ (if b then "true" else "false") ++ ")"
  | int n => "Int(" ++ toString n.toInt ++ ")"
  | text s => "Text(" ++ Quoted.text s ++ ")"
  | bytes bs => "Bytes([" ++ ", ".intercalate (bs.map fun b => toString b.toNat) ++ "])"
  | row columns => "Row([" ++ ", ".intercalate (columnsShown columns) ++ "])"

/-- The texts that show the columns of a row. -/
def columnsShown : List Value → List String
  | [] => []
  | v :: rest => shown v :: columnsShown rest
end

end TxnStore.Value
