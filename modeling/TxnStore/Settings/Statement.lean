import TxnStore.Bytes.Hex

/-!
# Statements of a settings text

A settings text is TOML: lines that bind a key to a value, headers that name the table to which the
following keys belong, comments and blank lines. Read are texts of all four quotations, integers in
the four bases, empty arrays, and tables between braces. Other values are refused here already,
since no setting takes them.
-/

namespace TxnStore

/-- The value of a binding. -/
inductive SettingValue where
  | text (s : String)
  | integer (n : Int)
  | emptyArray
  | table (entries : List (List String × SettingValue))
deriving Repr, Inhabited

/-- A line of a settings text that says something. -/
inductive Statement where
  /-- The keys that follow belong to the table at this path. -/
  | header (path : List String)
  /-- A key, given by its path in the table of the last header, and its value. -/
  | binding (path : List String) (value : SettingValue)
deriving Repr, Inhabited

namespace Statement

/-! ## Blanks and comments -/

def isBlank (c : Char) : Bool := c == ' ' || c == '\t'

def skipBlanks (cs : List Char) : List Char := cs.dropWhile isBlank

/-- Whether a character may stand in a comment or between single quotes: no control character but
the tab. -/
def isPlain (c : Char) : Bool := c == '\t' || (32 ≤ c.toNat && c.toNat ≠ 127)

/-- The characters behind a line break, if one stands here. -/
def lineBreak? : List Char → Option (List Char)
  | '\n' :: cs => some cs
  | '\r' :: '\n' :: cs => some cs
  | _ => none

def skipComment : List Char → List Char
  | '#' :: cs => cs.dropWhile isPlain
  | cs => cs

/-- The characters behind the end of a line: blanks, a comment, and a line break or the end. -/
def endLine (cs : List Char) : Option (List Char) :=
  match skipComment (skipBlanks cs) with
  | [] => some []
  | cs => lineBreak? cs

/-! ## Texts -/

/-- The number that hexadecimal digits stand for. -/
def hexNumber? (cs : List Char) : Option Nat :=
  cs.foldl (fun acc c => acc.bind fun n => (Hex.digitVal? c).map (16 * n + ·)) (some 0)

/-- The character with a number, if it is one. -/
def charOf? (n : Nat) : Option Char := if h : n.isValidChar then some (Char.ofNatAux n h) else none

/-- The character that an escape stands for, and what follows the escape. -/
def escape? : List Char → Option (Char × List Char)
  | 'b' :: cs => some ('\x08', cs)
  | 't' :: cs => some ('\t', cs)
  | 'n' :: cs => some ('\n', cs)
  | 'f' :: cs => some ('\x0c', cs)
  | 'r' :: cs => some ('\r', cs)
  | '"' :: cs => some ('"', cs)
  | '\\' :: cs => some ('\\', cs)
  | 'u' :: cs =>
    if (cs.take 4).length = 4 then
      ((hexNumber? (cs.take 4)).bind charOf?).map fun c => (c, cs.drop 4)
    else none
  | 'U' :: cs =>
    if (cs.take 8).length = 8 then
      ((hexNumber? (cs.take 8)).bind charOf?).map fun c => (c, cs.drop 8)
    else none
  | _ => none

/-- Reads a text behind its opening double quote. -/
def basicText : (bound : Nat) → List Char → Option (List Char × List Char)
  | 0, _ => none
  | bound + 1, cs =>
    match cs with
    | '"' :: cs => some ([], cs)
    | '\\' :: cs =>
      match escape? cs with
      | some (c, cs) => (basicText bound cs).map fun (t, cs) => (c :: t, cs)
      | none => none
    | c :: cs => if isPlain c then (basicText bound cs).map fun (t, cs) => (c :: t, cs) else none
    | [] => none

/-- Reads a text behind its opening single quote. -/
def literalText (cs : List Char) : Option (List Char × List Char) :=
  match cs.span fun c => isPlain c && c != '\'' with
  | (t, '\'' :: cs) => some (t, cs)
  | _ => none

/-- The characters behind blanks and line breaks. -/
def skipLines : (bound : Nat) → List Char → List Char
  | 0, cs => cs
  | bound + 1, cs =>
    match lineBreak? (skipBlanks cs) with
    | some cs => skipLines bound cs
    | none => skipBlanks cs

/-- The characters behind a backslash that ends a line, and behind the blank lines that follow. -/
def joinedLine? (cs : List Char) : Option (List Char) :=
  (lineBreak? (skipBlanks cs)).map fun cs => skipLines cs.length cs

/-- Where a text of several lines ends: at three quotes, before which up to two more may stand. -/
def closing? (quote : Char) (cs : List Char) : Option (List Char × List Char) :=
  let n := (cs.takeWhile (· == quote)).length
  if 3 ≤ n then
    if n ≤ 5 then some (List.replicate (n - 3) quote, cs.drop n)
    else some (List.replicate 2 quote, cs.drop 5)
  else none

/-- Reads a text of several lines behind its opening quotes; `escapes` says whether a backslash
escapes. -/
def linesText (quote : Char) (escapes : Bool) :
    (bound : Nat) → List Char → Option (List Char × List Char)
  | 0, _ => none
  | bound + 1, cs =>
    match closing? quote cs with
    | some r => some r
    | none =>
      match lineBreak? cs with
      | some cs => (linesText quote escapes bound cs).map fun (t, cs) => ('\n' :: t, cs)
      | none =>
        match cs with
        | [] => none
        | c :: rest =>
          if c = '\\' ∧ escapes then
            match joinedLine? rest with
            | some rest => linesText quote escapes bound rest
            | none =>
              match escape? rest with
              | some (c, rest) =>
                (linesText quote escapes bound rest).map fun (t, cs) => (c :: t, cs)
              | none => none
          else if isPlain c then
            (linesText quote escapes bound rest).map fun (t, cs) => (c :: t, cs)
          else none

/-- The characters behind a line break that follows the opening quotes at once. -/
def skipFirstBreak (cs : List Char) : List Char := (lineBreak? cs).getD cs

/-- Reads a text behind the quotes that a text of one line or of several starts with. -/
def quoted (cs : List Char) : Option (List Char × List Char) :=
  match cs with
  | '"' :: '"' :: '"' :: cs => linesText '"' true (cs.length + 1) (skipFirstBreak cs)
  | '\'' :: '\'' :: '\'' :: cs => linesText '\'' false (cs.length + 1) (skipFirstBreak cs)
  | '"' :: cs => basicText (cs.length + 1) cs
  | '\'' :: cs => literalText cs
  | _ => none

/-! ## Integers -/

/-- Reads digits of a base, among which single underscores may stand. -/
def digits (isDigit : Char → Bool) : List Char → List Char × List Char
  | '_' :: c :: cs =>
    if isDigit c then
      let (ds, rest) := digits isDigit cs
      (c :: ds, rest)
    else ([], '_' :: c :: cs)
  | c :: cs =>
    if isDigit c then
      let (ds, rest) := digits isDigit cs
      (c :: ds, rest)
    else ([], c :: cs)
  | [] => ([], [])

/-- The number that digits of a base stand for. -/
def numberOf (base : Nat) (ds : List Char) : Nat :=
  ds.foldl (fun n c => base * n + (Hex.digitVal? c).getD 0) 0

/-- Reads digits of a base, the first of which is no underscore. -/
def based (base : Nat) (cs : List Char) : Option (Int × List Char) :=
  let isDigit (c : Char) : Bool := (Hex.digitVal? c).any (· < base)
  match cs with
  | '_' :: _ => none
  | cs =>
    match digits isDigit cs with
    | ([], _) => none
    | (ds, rest) => some (numberOf base ds, rest)

/-- Reads a decimal number without a sign; a zero stands alone. -/
def decimal (cs : List Char) : Option (Int × List Char) :=
  match based 10 cs with
  | some (n, rest) =>
    if cs.head? = some '0' ∧ (cs.drop 1).length ≠ rest.length then none else some (n, rest)
  | none => none

/-- Reads an integer; a sign may stand before decimal digits only. -/
def integer (cs : List Char) : Option (Int × List Char) :=
  let read :=
    match cs with
    | '+' :: cs => decimal cs
    | '-' :: cs => (decimal cs).map fun (n, rest) => (-n, rest)
    | '0' :: 'x' :: cs => based 16 cs
    | '0' :: 'o' :: cs => based 8 cs
    | '0' :: 'b' :: cs => based 2 cs
    | cs => decimal cs
  match read with
  | some (n, rest) =>
    if -0x8000000000000000 ≤ n ∧ n < 0x8000000000000000 then some (n, rest) else none
  | none => none

/-! ## Keys and values -/

/-- Whether a character may stand in a key without quotes. -/
def isBare (c : Char) : Bool :=
  ('a' ≤ c && c ≤ 'z') || ('A' ≤ c && c ≤ 'Z') || ('0' ≤ c && c ≤ '9') || c == '_' || c == '-'

def keyPart (cs : List Char) : Option (String × List Char) :=
  match cs with
  | '"' :: cs => (basicText (cs.length + 1) cs).map fun (t, cs) => (String.ofList t, cs)
  | '\'' :: cs => (literalText cs).map fun (t, cs) => (String.ofList t, cs)
  | cs =>
    match cs.span isBare with
    | ([], _) => none
    | (t, cs) => some (String.ofList t, cs)

/-- Reads a key: parts with points between them. -/
def key : (bound : Nat) → List Char → Option (List String × List Char)
  | 0, _ => none
  | bound + 1, cs =>
    match keyPart (skipBlanks cs) with
    | none => none
    | some (part, cs) =>
      match skipBlanks cs with
      | '.' :: cs => (key bound cs).map fun (parts, cs) => (part :: parts, cs)
      | cs => some ([part], cs)

/-- The characters behind blanks, line breaks and comments. -/
def skipFiller : (bound : Nat) → List Char → List Char
  | 0, cs => cs
  | bound + 1, cs =>
    match lineBreak? (skipComment (skipBlanks cs)) with
    | some cs => skipFiller bound cs
    | none => skipBlanks cs

mutual
/-- Reads a value. -/
def value : (bound : Nat) → List Char → Option (SettingValue × List Char)
  | 0, _ => none
  | bound + 1, cs =>
    match cs with
    | '[' :: rest =>
      match skipFiller rest.length rest with
      | ']' :: rest => some (.emptyArray, rest)
      | _ => none
    | '\x7b' :: rest =>
      match skipBlanks rest with
      | '\x7d' :: rest => some (.table [], rest)
      | rest => (entries bound rest).map fun (es, rest) => (.table es, rest)
    | cs =>
      match quoted cs with
      | some (t, rest) => some (.text (String.ofList t), rest)
      | none => (integer cs).map fun (n, rest) => (.integer n, rest)

/-- Reads the entries of a table between braces. -/
def entries : (bound : Nat) → List Char → Option (List (List String × SettingValue) × List Char)
  | 0, _ => none
  | bound + 1, cs =>
    match key (cs.length + 1) cs with
    | some (path, '=' :: cs) =>
      match value bound (skipBlanks cs) with
      | none => none
      | some (v, cs) =>
        match skipBlanks cs with
        | ',' :: cs => (entries bound cs).map fun (es, cs) => ((path, v) :: es, cs)
        | '\x7d' :: cs => some ([(path, v)], cs)
        | _ => none
    | _ => none
end

/-! ## Lines -/

def readHeader (cs : List Char) : Option (Statement × List Char) :=
  match key (cs.length + 1) cs with
  | some (path, ']' :: cs) => some (.header path, cs)
  | _ => none

def readBinding (cs : List Char) : Option (Statement × List Char) :=
  match key (cs.length + 1) cs with
  | some (path, '=' :: cs) =>
    (value (cs.length + 1) (skipBlanks cs)).map fun (v, cs) => (.binding path v, cs)
  | _ => none

/-- Reads the statements of a text line by line. -/
def readLines : (bound : Nat) → List Char → Option (List Statement)
  | 0, _ => none
  | bound + 1, cs =>
    match skipBlanks cs with
    | [] => some []
    | cs =>
      match endLine cs with
      | some rest => readLines bound rest
      | none =>
        let statement :=
          match cs with
          | '[' :: cs => readHeader cs
          | cs => readBinding cs
        match statement with
        | none => none
        | some (s, rest) =>
          match endLine rest with
          | none => none
          | some rest => (readLines bound rest).map (s :: ·)

/-- The statements of a text. A mark of byte order may stand before the first. -/
def ofText? (s : String) : Option (List Statement) :=
  let cs :=
    match s.toList with
    | '\ufeff' :: cs => cs
    | cs => cs
  readLines (cs.length + 1) cs

end Statement

end TxnStore
