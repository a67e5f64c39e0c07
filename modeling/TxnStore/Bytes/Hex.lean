/-!
# Hexadecimal text of bytes

Each byte is written as two lower-case digits, the high half first.
-/

namespace TxnStore.Hex

/-- The digit of a number below sixteen. -/
def digit (n : Nat) : Char :=
  if n < 10 then Char.ofNat (48 + n) else Char.ofNat (87 + n)

/-- The two digits of one byte. -/
def ofByte (b : UInt8) : List Char := [digit (b.toNat / 16), digit (b.toNat % 16)]

/-- The digits of a run of bytes. -/
def chars (bs : List UInt8) : List Char := bs.flatMap ofByte

/-- The text of a run of bytes. -/
def text (bs : List UInt8) : String := String.ofList (chars bs)

/-- The value of a hexadecimal digit of either case. -/
def digitVal? (c : Char) : Option Nat :=
  if '0' ≤ c ∧ c ≤ '9' then some (c.toNat - 48)
  else if 'a' ≤ c ∧ c ≤ 'f' then some (c.toNat - 87)
  else if 'A' ≤ c ∧ c ≤ 'F' then some (c.toNat - 55)
  else none

/-- Reads pairs of digits as bytes; an odd digit or a foreign character is refused. -/
def ofChars? : List Char → Option (List UInt8)
  | [] => some []
  | [_] => none
  | hi :: lo :: rest =>
    match digitVal? hi, digitVal? lo, ofChars? rest with
    | some h, some l, some bs => some (UInt8.ofNat (16 * h + l) :: bs)
    | _, _, _ => none

end TxnStore.Hex
