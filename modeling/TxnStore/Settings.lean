import TxnStore.Error
import TxnStore.Log.Options

/-!
# Settings

What an engine can be told: the isolation of its transactions, when its log is made to last, how
much unwritten data makes a map count as dirty, how many numbers a sequence reserves at a time, and
the salt of its log.
-/

namespace TxnStore

/-- How far a transaction is kept apart from those that run beside it. -/
inductive Isolation where
  | readCommitted | repeatableRead | serializable
deriving DecidableEq, Repr

namespace Isolation

/-- Whether a transaction must read the same value each time. -/
def needsRepeatableRead : Isolation → Bool
  | readCommitted => false
  | _ => true

/-- The word for an isolation in settings. -/
def name : Isolation → String
  | readCommitted => "read_committed"
  | repeatableRead => "repeatable_read"
  | serializable => "serializable"

/-- The word for an isolation in debugging reports. -/
def shown : Isolation → String
  | readCommitted => "ReadCommitted"
  | repeatableRead => "RepeatableRead"
  | serializable => "Serializable"

/-- The isolation that a word stands for. -/
def ofName? (s : String) : Option Isolation :=
  if s = "read_committed" then some readCommitted
  else if s = "repeatable_read" then some repeatableRead
  else if s = "serializable" then some serializable
  else none

end Isolation

/-- The settings of an engine. -/
structure Settings where
  defaultIsolation : Isolation
  logSync : LogSync
  /-- The estimated bytes of redo from which on a map counts as dirty. -/
  dirtyThreshold : UInt64
  /-- The numbers that a sequence reserves at a time unless it is told otherwise. -/
  sequenceCache : Int64
  logSalt : UInt64
deriving DecidableEq, Repr

namespace Settings

/-- The settings of an engine that is told nothing. -/
def basic : Settings := ⟨.readCommitted, .always, 4 * 1024 * 1024, 32, 0⟩

/-- Settings for durability: every commit lasts, and reads repeat. -/
def durable : Settings := { basic with defaultIsolation := .repeatableRead }

/-- Settings for speed: commits last when the host sees fit, and sequences reserve many numbers. -/
def fast : Settings :=
  { basic with logSync := .never, dirtyThreshold := 64 * 1024 * 1024, sequenceCache := 1024 }

/-- The settings of a preset; the basic ones where there is no preset of the name. -/
def preset (name : String) : Settings :=
  if name = "durable" then durable else if name = "fast" then fast else basic

/-- Refuses settings that no engine can run with. -/
def validate (s : Settings) : Except StoreError Unit :=
  if s.sequenceCache < 1 then .error (.settings (.cacheSize s.sequenceCache))
  else if s.dirtyThreshold = 0 then .error (.settings .dirtyThreshold)
  else .ok ()

/-- The options of a log opened with these settings. -/
def logOptions (s : Settings) : LogOptions := .basic s.logSalt s.logSync

def line (key value : String) : String := key ++ " = " ++ value ++ "\n"

/-- The greatest number that the text of settings can hold. -/
def numberLimit : Nat := 0x8000000000000000

/-- The text of settings: one line for each, in a fixed order. Numbers beyond the signed range have
no text. -/
def render (s : Settings) : Except StoreError String :=
  if s.dirtyThreshold.toNat < numberLimit ∧ s.logSalt.toNat < numberLimit then
    .ok (line "default_isolation" ("\"" ++ s.defaultIsolation.name ++ "\"") ++
      line "redo_sync" ("\"" ++ s.logSync.name ++ "\"") ++
      line "dirty_memory_threshold" (toString s.dirtyThreshold.toNat) ++
      line "sequence_cache_size" (toString s.sequenceCache.toInt) ++
      line "redo_salt" (toString s.logSalt.toNat))
  else .error (.settings .text)

end Settings

end TxnStore
