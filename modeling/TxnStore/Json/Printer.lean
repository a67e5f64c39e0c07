import TxnStore.Json
import TxnStore.Bytes.Hex

/-!
# Writing JSON

Documents are written over several lines: each item and each member on a line of its own, two blanks
further in than the bracket before it, with a blank behind the colon. An empty array or object is
written as its two brackets. In a text the quote, the backslash and the control characters are
escaped, and every other character stands as it is.
-/

namespace TxnStore.Json

/-- The written form of one character of a text. -/
def escape (c : Char) : List Char :=
  match c with
  | '"' => ['\\', '"']
  | '\\' => ['\\', '\\']
  | '\x08' => ['\\', 'b']
  | '\x0c' => ['\\', 'f']
  | '\n' => ['\\', 'n']
  | '\r' => ['\\', 'r']
  | '\t' => ['\\', 't']
  | c =>
    if c.toNat < 32 then '\\' :: 'u' :: '0' :: '0' :: Hex.ofByte (UInt8.ofNat c.toNat) else [c]

/-- A text between quotes. -/
def quote (s : String) : List Char := '"' :: s.toList.flatMap escape ++ ['"']

/-- A line break and the blanks that start a line at a level. -/
def newline (level : Nat) : List Char := '\n' :: List.replicate (2 * level) ' '

/-- A number: an integer in full, any other as digits and exponent. -/
def printNumber : JsonNumber → List Char
  | .integer n => (toString n).toList
  | .decimal digits exponent => (toString digits ++ "e" ++ toString exponent).toList

mutual
/-- The written form of a document at a level of indentation. -/
def print (level : Nat) : Json → List Char
  | null => "null".toList
  | bool b => (if b then "true" else "false").toList
  | number n => printNumber n
  | string s => quote (s.getD "")
  | array [] => "[]".toList
  | array (j :: rest) =>
    '[' :: newline (level + 1) ++ print (level + 1) j ++ printItems (level + 1) rest ++
      newline level ++ [']']
  | object [] => "\x7b\x7d".toList
  | object ((k, j) :: rest) =>
    '\x7b' :: newline (level + 1) ++ quote (k.getD "") ++ ':' :: ' ' :: print (level + 1) j ++
      printMembers (level + 1) rest ++ newline level ++ ['\x7d']

/-- The items after the first. -/
def printItems (level : Nat) : List Json → List Char
  | [] => []
  | j :: rest => ',' :: newline level ++ print level j ++ printItems level rest

/-- The members after the first. -/
def printMembers (level : Nat) : List (Option String × Json) → List Char
  | [] => []
  | (k, j) :: rest =>
    ',' :: newline level ++ quote (k.getD "") ++ ':' :: ' ' :: print level j ++
      printMembers level rest
end

/-- The text of a document. -/
def pretty (j : Json) : String := String.ofList (print 0 j)

end TxnStore.Json
