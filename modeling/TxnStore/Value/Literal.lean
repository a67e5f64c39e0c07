import TxnStore.Bytes.Hex
import TxnStore.Value

/-!
# Literals

The text in which reports show a value: `NULL`, a truth value, a decimal number, a text between
single quotes, bytes as `x` and hexadecimal digits between single quotes, and a row as its columns
between parentheses, separated by a comma and a blank. A text is shown as it stands.
-/

namespace TxnStore.Value

mutual
def literal : Value → List Char
  | null => "NULL".toList
  | bool b => (if b then "true" else "false").toList
  | int n => (toString n.toInt).toList
  | text s => '\'' :: s.toList ++ ['\'']
  | bytes bs => 'x' :: '\'' :: Hex.chars bs ++ ['\'']
  | row columns => '(' :: literals columns ++ [')']

/-- The literals of columns with their separators. -/
def literals : List Value → List Char
  | [] => []
  | [v] => literal v
  | v :: w :: rest => literal v ++ ',' :: ' ' :: literals (w :: rest)
end

/-- The literal of a value as a text. -/
def display (v : Value) : String := String.ofList v.literal

end TxnStore.Value
