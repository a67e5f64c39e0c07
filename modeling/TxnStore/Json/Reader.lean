import TxnStore.Bytes.Hex
import TxnStore.Bytes.Text
import TxnStore.Json

/-!
# Reading JSON

The reader takes the bytes of a whole document. It accepts the grammar of JSON alone: no comments,
no comma before a closing bracket, no leading zeros, and nothing but blanks behind the document.
Bytes that are not UTF-8 may stand only within texts, which then cannot be read.
-/

namespace TxnStore.Json

/-! ## Texts -/

/-- Whether a byte may follow a backslash as an escape of its own. -/
def isShortEscape (b : UInt8) : Bool :=
  b == 0x22 || b == 0x5C || b == 0x2F || b == 0x62 || b == 0x66 || b == 0x6E || b == 0x72 ||
    b == 0x74

/-- The value of a byte that is a hexadecimal digit. -/
def hexVal? (b : UInt8) : Option Nat := Hex.digitVal? (Char.ofNat b.toNat)

/-- The number that four hexadecimal digits stand for. -/
def unit? (a b c d : UInt8) : Option Nat :=
  match hexVal? a, hexVal? b, hexVal? c, hexVal? d with
  | some a, some b, some c, some d => some (((a * 16 + b) * 16 + c) * 16 + d)
  | _, _, _, _ => none

/-- Splits the bytes behind an opening quote into the written text and what follows the closing
quote. Control characters and unknown escapes are refused. -/
def splitText : List UInt8 → Option (List UInt8 × List UInt8)
  | [] => none
  | 0x22 :: rest => some ([], rest)
  -- A numbered escape: only its digits count here; surrogates are paired by `unescape`.
  | 0x5C :: 0x75 :: a :: b :: c :: d :: rest =>
    if (unit? a b c d).isSome then
      (splitText rest).map fun (raw, rest) => (0x5C :: 0x75 :: a :: b :: c :: d :: raw, rest)
    else none
  | 0x5C :: e :: rest =>
    if isShortEscape e then (splitText rest).map fun (raw, rest) => (0x5C :: e :: raw, rest)
    else none
  | b :: rest =>
    if b < 0x20 || b == 0x5C then none
    else (splitText rest).map fun (raw, rest) => (b :: raw, rest)

/-- The byte that a short escape stands for. -/
def shortEscape (e : UInt8) : UInt8 :=
  if e == 0x62 then 8 else if e == 0x66 then 12 else if e == 0x6E then 10
  else if e == 0x72 then 13 else if e == 0x74 then 9 else e

/-- The UTF-8 bytes of the character with a number. -/
def charBytes (n : Nat) : List UInt8 := Text.toBytes (String.singleton (Char.ofNat n))

/-- The character that two surrogates stand for. -/
def joinSurrogates (hi lo : Nat) : Nat := 0x10000 + (hi - 0xD800) * 0x400 + (lo - 0xDC00)

/-- The bytes that a written text stands for. Surrogates count only in pairs. -/
def unescape : List UInt8 → Option (List UInt8)
  | [] => some []
  -- Two numbered escapes in a row: the first may need the second.
  | 0x5C :: 0x75 :: a :: b :: c :: d :: 0x5C :: 0x75 :: a' :: b' :: c' :: d' :: rest =>
    match unit? a b c d, unit? a' b' c' d' with
    | some n, some m =>
      if n < 0xD800 ∨ 0xE000 ≤ n then
        (unescape (0x5C :: 0x75 :: a' :: b' :: c' :: d' :: rest)).map (charBytes n ++ ·)
      else if n < 0xDC00 ∧ 0xDC00 ≤ m ∧ m < 0xE000 then
        (unescape rest).map (charBytes (joinSurrogates n m) ++ ·)
      else none
    | _, _ => none
  | 0x5C :: 0x75 :: a :: b :: c :: d :: rest =>
    match unit? a b c d with
    | some n =>
      if n < 0xD800 ∨ 0xE000 ≤ n then (unescape rest).map (charBytes n ++ ·) else none
    | none => none
  | 0x5C :: e :: rest => (unescape rest).map (shortEscape e :: ·)
  | b :: rest => (unescape rest).map (b :: ·)

/-- The text that a written text stands for, if it stands for one. -/
def readText (raw : List UInt8) : Option String := (unescape raw).bind Text.ofBytes?

/-! ## Numbers -/

def isDigit (b : UInt8) : Bool := 0x30 ≤ b && b ≤ 0x39

/-- The number that decimal digits stand for, with digits read before. -/
def digitsVal (acc : Nat) (ds : List UInt8) : Nat :=
  ds.foldl (fun n d => 10 * n + (d.toNat - 0x30)) acc

/-- The digits of an integral part: one zero, or digits that do not start with one. -/
def splitIntegral (bs : List UInt8) : Option (List UInt8 × List UInt8) :=
  match bs.span isDigit with
  | ([], _) => none
  | (0x30 :: _ :: _, _) => none
  | (ds, rest) => some (ds, rest)

/-- The digits behind a point, where there is one. -/
def splitFraction : List UInt8 → Option (Option (List UInt8) × List UInt8)
  | 0x2E :: bs =>
    match bs.span isDigit with
    | ([], _) => none
    | (ds, rest) => some (some ds, rest)
  | bs => some (none, bs)

/-- The digits of an exponent and their sign. -/
def splitExponentDigits (negative : Bool) (bs : List UInt8) : Option (Option Int × List UInt8) :=
  match bs.span isDigit with
  | ([], _) => none
  | (ds, rest) =>
    let n : Int := digitsVal 0 ds
    some (some (if negative then -n else n), rest)

def splitExponent : List UInt8 → Option (Option Int × List UInt8)
  | b :: bs =>
    if b == 0x65 || b == 0x45 then
      match bs with
      | 0x2B :: bs => splitExponentDigits false bs
      | 0x2D :: bs => splitExponentDigits true bs
      | bs => splitExponentDigits false bs
    else some (none, b :: bs)
  | [] => some (none, [])

/-- The number that leading digits stand for as long as it fits a word of 64 bits, with digits read
before, and how many digits are left. -/
def leadingDigits (acc : Nat) : List UInt8 → Nat × Nat
  | [] => (acc, 0)
  | d :: ds =>
    let n := 10 * acc + (d.toNat - 0x30)
    if n < UInt64.size then leadingDigits n ds else (acc, ds.length + 1)

/-- The number whose parts were written. Each integral digit that is left multiplies it by ten; the
digits behind the point that are left do not count. -/
def makeNumber (negative : Bool) (integral : List UInt8) (fraction : Option (List UInt8))
    (exponent : Option Int) : JsonNumber :=
  let (n, left) := leadingDigits 0 integral
  match fraction, exponent with
  | none, none =>
    if left ≠ 0 then .decimal n left
    else if negative then (if n = 0 then .decimal 0 0 else .integer (-n))
    else .integer n
  | _, _ =>
    let ds := fraction.getD []
    let (digits, dropped) := leadingDigits n ds
    .decimal digits (exponent.getD 0 + left - (ds.length - dropped))

def readUnsigned (negative : Bool) (bs : List UInt8) : Option (JsonNumber × List UInt8) :=
  match splitIntegral bs with
  | none => none
  | some (integral, bs) =>
    match splitFraction bs with
    | none => none
    | some (fraction, bs) =>
      match splitExponent bs with
      | none => none
      | some (exponent, bs) => some (makeNumber negative integral fraction exponent, bs)

def readNumber : List UInt8 → Option (JsonNumber × List UInt8)
  | 0x2D :: bs => readUnsigned true bs
  | bs => readUnsigned false bs

/-! ## Documents -/

def isBlank (b : UInt8) : Bool := b == 0x20 || b == 0x0A || b == 0x09 || b == 0x0D

def skipBlanks (bs : List UInt8) : List UInt8 := bs.dropWhile isBlank

mutual
/-- Reads a value. No value lies deeper than there are bytes, which bounds the recursion. -/
def readValue : (bound : Nat) → List UInt8 → Option (Json × List UInt8)
  | 0, _ => none
  | bound + 1, bs =>
    match skipBlanks bs with
    | 0x7B :: rest =>
      match skipBlanks rest with
      | 0x7D :: rest => some (.object [], rest)
      | rest => (readMembers bound rest).map fun (ms, rest) => (.object ms, rest)
    | 0x5B :: rest =>
      match skipBlanks rest with
      | 0x5D :: rest => some (.array [], rest)
      | rest => (readItems bound rest).map fun (xs, rest) => (.array xs, rest)
    | 0x22 :: rest => (splitText rest).map fun (raw, rest) => (.string (readText raw), rest)
    -- The three names, then whatever may start a number.
    | 0x6E :: 0x75 :: 0x6C :: 0x6C :: rest => some (.null, rest)
    | 0x74 :: 0x72 :: 0x75 :: 0x65 :: rest => some (.bool true, rest)
    | 0x66 :: 0x61 :: 0x6C :: 0x73 :: 0x65 :: rest => some (.bool false, rest)
    | rest => (readNumber rest).map fun (n, rest) => (.number n, rest)

/-- Reads the items of an array behind its bracket or behind a comma. -/
def readItems : (bound : Nat) → List UInt8 → Option (List Json × List UInt8)
  | 0, _ => none
  | bound + 1, bs =>
    match readValue bound bs with
    | none => none
    | some (j, rest) =>
      match skipBlanks rest with
      | 0x5D :: rest => some ([j], rest)
      | 0x2C :: rest => (readItems bound rest).map fun (js, rest) => (j :: js, rest)
      | _ => none

/-- Reads the members of an object behind its brace or behind a comma. -/
def readMembers : (bound : Nat) → List UInt8 → Option (List (Option String × Json) × List UInt8)
  | 0, _ => none
  | bound + 1, bs =>
    match skipBlanks bs with
    | 0x22 :: rest =>
      match splitText rest with
      | none => none
      | some (raw, rest) =>
        match skipBlanks rest with
        | 0x3A :: rest =>
          match readValue bound rest with
          | none => none
          | some (j, rest) =>
            match skipBlanks rest with
            | 0x7D :: rest => some ([(readText raw, j)], rest)
            | 0x2C :: rest =>
              (readMembers bound rest).map fun (ms, rest) => ((readText raw, j) :: ms, rest)
            | _ => none
        | _ => none
    | _ => none
end

/-- The document whose bytes are given. -/
def ofBytes? (bs : List UInt8) : Option Json :=
  match readValue (2 * bs.length + 2) bs with
  | some (j, rest) => if (skipBlanks rest).isEmpty then some j else none
  | none => none

/-- The document whose text is given. -/
def ofText? (s : String) : Option Json := ofBytes? (Text.toBytes s)

end TxnStore.Json
