import TxnStore.Disk
import TxnStore.Settings
import TxnStore.Settings.Statement

/-!
# Reading settings

Each setting may be given once, by its key at the top of the text, and keeps its basic value where
it is not given. Unknown keys are refused. A setting that is a choice takes the word of the choice
as a text, or a table whose only key is that word and stands for nothing itself.
-/

namespace TxnStore.Settings

/-- A statement with the path at which it stands in the whole text. -/
structure Placed where
  /-- The header above the statement. -/
  table : List String
  statement : Statement

/-- The statements with the headers above them. -/
def place : List String → List Statement → List Placed
  | _, [] => []
  | table, .header path :: rest => ⟨table, .header path⟩ :: place path rest
  | table, s :: rest => ⟨table, s⟩ :: place table rest

/-- The path of a statement in the whole text. -/
def Placed.path (p : Placed) : List String :=
  match p.statement with
  | .header path => path
  | .binding path _ => p.table ++ path

/-- Whether a value is an empty array or an empty table. -/
def isNothing : SettingValue → Bool
  | .emptyArray => true
  | .table [] => true
  | _ => false

/-- The choice that a table between braces makes. -/
def choiceOfTable? : List (List String × SettingValue) → Option String
  | [([word], v)] => if isNothing v then some word else none
  | _ => none

/-- The word that a binding, below the header of its setting or not, chooses. -/
def choiceOfBinding? (key : String) (p : Placed) : Option String :=
  match p.statement, p.path with
  | .binding _ (.text s), [k] => if k = key then some s else none
  | .binding _ (.table es), [k] => if k = key then choiceOfTable? es else none
  | .binding _ v, [k, word] => if k = key ∧ isNothing v then some word else none
  | _, _ => none

/-- The word that the statements about a setting choose. A header for the setting itself may stand
once, before a binding below it or beside a header that names the word. -/
def choice? (key : String) (about : List Placed) : Option String :=
  let isOwnHeader (p : Placed) : Bool :=
    match p.statement with
    | .header [k] => k == key
    | _ => false
  match about.filter isOwnHeader, about.filter fun p => !isOwnHeader p with
  | own, [p] =>
    match p.statement with
    | .header [_, word] => if own.length ≤ 1 then some word else none
    | .header _ => none
    | .binding _ _ =>
      if own.isEmpty && p.table.isEmpty || own.length == 1 && p.table == [key] then
        choiceOfBinding? key p
      else none
  | _, _ => none

/-- The number that the statements about a setting give. -/
def number? : List Placed → Option Int
  | [⟨[], .binding [_] (.integer n)⟩] => some n
  | _ => none

/-- A setting read from the statements about it, or its basic value where there are none. -/
def readSetting {α : Type} (statements : List Placed) (key : String) (basic : α)
    (read : List Placed → Option α) : Option α :=
  match statements.filter fun p => p.path.head? = some key with
  | [] => some basic
  | about => read about

/-- The keys of all settings. -/
def keys : List String :=
  ["default_isolation", "redo_sync", "dirty_memory_threshold", "sequence_cache_size", "redo_salt"]

/-- A number that is not negative as a word. -/
def word? (n : Int) : Option UInt64 := if 0 ≤ n then some (UInt64.ofNat n.toNat) else none

def ofStatements? (statements : List Placed) : Option Settings := do
  guard (statements.all fun p => p.path.head?.any keys.contains)
  let defaultIsolation ← readSetting statements "default_isolation" basic.defaultIsolation fun ps =>
    (choice? "default_isolation" ps).bind Isolation.ofName?
  let logSync ← readSetting statements "redo_sync" basic.logSync fun ps =>
    (choice? "redo_sync" ps).bind LogSync.ofName?
  let dirtyThreshold ←
    readSetting statements "dirty_memory_threshold" basic.dirtyThreshold fun ps =>
      (number? ps).bind word?
  let sequenceCache ← readSetting statements "sequence_cache_size" basic.sequenceCache fun ps =>
    (number? ps).map Int64.ofInt
  let logSalt ← readSetting statements "redo_salt" basic.logSalt fun ps => (number? ps).bind word?
  return { defaultIsolation, logSync, dirtyThreshold, sequenceCache, logSalt }

/-- The settings of a text; settings that no engine can run with are refused. -/
def ofText (s : String) : Except StoreError Settings :=
  match (Statement.ofText? s).bind fun ss => ofStatements? (place [] ss) with
  | none => .error (.settings .text)
  | some settings =>
    match settings.validate with
    | .ok _ => .ok settings
    | .error e => .error e

def ofFile (path : String) (item : DiskItem) : Except StoreError Settings :=
  match item.text with
  | .ok s => ofText s
  | .error fault => .error (.settings (.file path fault))

end TxnStore.Settings
