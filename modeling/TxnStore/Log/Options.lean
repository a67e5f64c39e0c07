import TxnStore.Ident

/-!
# Options of a log

How a log is opened: the salt that guards its payloads, when frames are made to last, and the number
that a new log starts with.
-/

namespace TxnStore

/-- When appended frames are made to last. -/
inductive LogSync where
  | always | never
deriving DecidableEq, Repr

/-- How a log is opened. -/
structure LogOptions where
  salt : UInt64
  sync : LogSync
  /-- The number of the first frame of a new log. -/
  startLsn : Lsn
deriving DecidableEq, Repr

/-- The options of a log whose frames are numbered from one. -/
def LogOptions.basic (salt : UInt64) (sync : LogSync) : LogOptions := ⟨salt, sync, ⟨1⟩⟩

namespace LogSync

/-- The word for a choice in settings. -/
def name : LogSync → String
  | always => "always"
  | never => "never"

/-- The word for a choice in debugging reports. -/
def shown : LogSync → String
  | always => "Always"
  | never => "Never"

/-- The choice that a word stands for. -/
def ofName? (s : String) : Option LogSync :=
  if s = "always" then some always else if s = "never" then some never else none

end LogSync

end TxnStore
