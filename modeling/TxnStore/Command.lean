/-!
# Commands

A command line names one thing to inspect: the log, the catalog or the settings in a file. Options
start with two hyphens and take a value, either behind an equals sign or as the next argument; the
argument `--` says that only words follow. The option `format` may stand before or behind the name
of the command, and the one behind it counts. Each option may be given once at each of the two
places. -/

namespace TxnStore

inductive ReportFormat where
  | text | json
deriving DecidableEq, Repr

/-- What is to be inspected. -/
inductive Command where
  /-- The frames and records of a log; a catalog says how to read its keys and values. -/
  | logDump (path : String) (salt : UInt64) (catalog : Option String)
  /-- The entries of a catalog. -/
  | catalogDump (path : String)
  /-- The settings of a file. -/
  | settingsCheck (path : String)
deriving DecidableEq, Repr

structure Request where
  format : ReportFormat
  command : Command
deriving DecidableEq, Repr

/-! ## Arguments -/

/-- What an argument is by its look. -/
inductive ArgumentForm where
  | word
  /-- An option whose value is the next argument. -/
  | option (name : String)
  /-- An option with its value. -/
  | assignment (name value : String)
  /-- The argument behind which only words follow. -/
  | ending
  /-- A single hyphen with letters, which no command takes. -/
  | short
deriving DecidableEq, Repr

/-- The form of an argument. A hyphen alone is a word. -/
def ArgumentForm.ofChars : List Char → ArgumentForm
  | ['-', '-'] => ending
  | '-' :: '-' :: cs =>
    match cs.span (· ≠ '=') with
    | (name, _ :: value) => assignment (String.ofList name) (String.ofList value)
    | (name, []) => option (String.ofList name)
  | '-' :: _ :: _ => short
  | _ => word

def ArgumentForm.ofArg (arg : String) : ArgumentForm := ofChars arg.toList

/-- Arguments sorted into options and words. -/
structure Arguments where
  options : List (String × String)
  words : List String
deriving DecidableEq, Repr

namespace Arguments

def none : Arguments := ⟨[], []⟩

def addOption (a : Arguments) (name value : String) : Arguments :=
  { a with options := (name, value) :: a.options }

def addWord (a : Arguments) (word : String) : Arguments := { a with words := word :: a.words }

/-- Sorts arguments of which only the known options are taken. -/
def sort (known : List String) : List String → Option Arguments
  | [] => some none
  | arg :: rest =>
    match ArgumentForm.ofArg arg with
    | .word => (sort known rest).map (·.addWord arg)
    | .ending => some ⟨[], rest⟩
    | .short => Option.none
    | .assignment name value =>
      if known.contains name then (sort known rest).map (·.addOption name value) else Option.none
    | .option name =>
      match rest with
      | [] => Option.none
      | value :: rest =>
        if known.contains name ∧ ArgumentForm.ofArg value = .word then
          (sort known rest).map (·.addOption name value)
        else Option.none

/-- Sorts the arguments in front of the first word; it and those behind it are left as words. -/
def sortFront (known : List String) : List String → Option Arguments
  | [] => some none
  | arg :: rest =>
    match ArgumentForm.ofArg arg with
    | .word => some ⟨[], arg :: rest⟩
    | .ending => Option.none
    | .short => Option.none
    | .assignment name value =>
      if known.contains name then (sortFront known rest).map (·.addOption name value)
      else Option.none
    | .option name =>
      match rest with
      | [] => Option.none
      | value :: rest =>
        if known.contains name ∧ ArgumentForm.ofArg value = .word then
          (sortFront known rest).map (·.addOption name value)
        else Option.none

/-- Reads the value of an option that may be left out. One that is given twice is refused. -/
def option? {α : Type} (a : Arguments) (name : String) (read : String → Option α) :
    Option (Option α) :=
  match a.options.filter fun o => o.1 = name with
  | [] => some Option.none
  | [o] => (read o.2).map some
  | _ => Option.none

def onlyWord? (a : Arguments) : Option String :=
  match a.words with
  | [w] => some w
  | _ => Option.none

end Arguments

/-! ## Reading a command line -/

/-- The form that a word stands for. -/
def ReportFormat.ofName? (s : String) : Option ReportFormat :=
  if s = "text" then some text else if s = "json" then some json else none

namespace Request

/-- A path must not be empty. -/
def path? (s : String) : Option String := if s = "" then none else some s

/-- The number that decimal digits stand for, with digits read before. -/
def digitsVal (acc : Nat) (cs : List Char) : Nat :=
  cs.foldl (fun n c => 10 * n + (c.toNat - '0'.toNat)) acc

/-- A number of 64 bits, in decimal digits with or without a plus sign. -/
def number? (cs : List Char) : Option UInt64 :=
  let ds := if cs.head? = some '+' then cs.tail else cs
  if ds.isEmpty ∨ ds.any (!·.isDigit) ∨ UInt64.size ≤ digitsVal 0 ds then none
  else some (UInt64.ofNat (digitsVal 0 ds))

/-- The options that a command takes, by the name of the command. -/
def optionNames (name : String) : List String :=
  if name = "redo-dump" then ["format", "salt", "catalog"] else ["format"]

def command? (name : String) (a : Arguments) : Option Command := do
  let path ← a.onlyWord?.bind path?
  if name = "redo-dump" then
    let salt ← a.option? "salt" fun s => number? s.toList
    let catalog ← a.option? "catalog" path?
    return .logDump path (salt.getD 0) catalog
  else if name = "catalog-dump" then return .catalogDump path
  else if name = "config-check" then return .settingsCheck path
  else none

/-- The request of a command line, if it is one. -/
def ofArgs? (args : List String) : Option Request := do
  let front ← Arguments.sortFront ["format"] args
  let outer ← front.option? "format" ReportFormat.ofName?
  match front.words with
  | [] => none
  | name :: rest =>
    let a ← Arguments.sort (optionNames name) rest
    let inner ← a.option? "format" ReportFormat.ofName?
    let command ← command? name a
    return ⟨(inner.or outer).getD .text, command⟩

end Request

end TxnStore
