import TxnStore.Text.Invisible

/-!
# Quoted text

Texts in debugging reports stand between double quotes. The quote, the backslash and the common
control characters are written behind a backslash, and every other character that shows no mark of
its own by its number between braces.
-/

namespace TxnStore.Quoted

/-- The lower-case hexadecimal digits of a number, without leading zeros. -/
def hexDigits (n : Nat) : List Char := Nat.toDigits 16 n

/-- The escape of a character that shows no mark: its number between braces. -/
def byNumber (c : Char) : List Char := "\\u\x7b".toList ++ hexDigits c.toNat ++ ['\x7d']

/-- The written form of one character. -/
def escape (c : Char) : List Char :=
  match c with
  | '"' => ['\\', '"']
  | '\\' => ['\\', '\\']
  | '\t' => ['\\', 't']
  | '\r' => ['\\', 'r']
  | '\n' => ['\\', 'n']
  | '\x00' => ['\\', '0']
  | c => if Invisible.isInvisible c then byNumber c else [c]

/-- A text between quotes. -/
def text (s : String) : String := String.ofList ('"' :: s.toList.flatMap escape ++ ['"'])

end TxnStore.Quoted
