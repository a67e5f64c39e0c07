import TxnStore.Ident
import TxnStore.Value

/-!
# Errors

What can go wrong, by cause: a device that fails, stored bytes that do not have their form, an
argument that cannot be acted on, a name that is missing or taken, a conflict between transactions.
Each cause has one wording, `StoreError.message`.
-/

namespace TxnStore

/-- How a device failed. -/
inductive DeviceFault where
  /-- A read reaches past the end of a file held in memory. -/
  | pastMemoryEnd
  /-- A read reaches past the end of a file of the host. -/
  | endOfFile
  | readFailed
  | writeFailed
  | syncFailed
  | lengthFailed
  | truncateFailed
  | diskFull
  /-- A length that no file of the host can have. -/
  | lengthOutOfRange
  /-- A path with a character that no path can have. -/
  | nulInPath
  /-- A failure that the host reports, with words of its own. -/
  | host
deriving DecidableEq, Repr

/-- What stored bytes lack. -/
inductive Damage where
  | offsetOverflow
  | pastEnd
  | notUtf8
  | rowTooDeep
  | unknownTag
  | recordFlag
  | recordTrailing
  | recordCodecs
  | logMagic
  | logVersion
  | logReserved
  | logChecksum
  | logSalt
deriving DecidableEq, Repr

/-- Why an argument cannot be acted on. -/
inductive Misuse where
  | readRangeOverflow
  | rowTooDeep
  | recordTooLong
  | frameTooLong
  | reservedSequenceName
  | tableSequence
  | objectIdRange
  | savepointAhead
deriving DecidableEq, Repr

/-- Why a catalog is refused. -/
inductive CatalogFault where
  | documentVersion (version : Nat)
  | unknownCodec (name : String)
deriving DecidableEq, Repr

/-- Why a path leads nowhere. -/
inductive PathFault where
  /-- Nothing has a name of the path. -/
  | absent
  /-- The path goes on behind what is no directory. -/
  | notDirectory
  /-- The path or a name of it is too long. -/
  | tooLong
deriving DecidableEq, Repr

/-- Why what lies at a path is no text. -/
inductive FileFault where
  | path (fault : PathFault)
  | directory
  | notUtf8
deriving DecidableEq, Repr

/-- Why settings are refused. -/
inductive SettingsFault where
  | cacheSize (size : Int64)
  | dirtyThreshold
  /-- There is no text at the path of the settings. -/
  | file (path : String) (fault : FileFault)
  /-- The text of the settings is malformed. -/
  | text
deriving DecidableEq, Repr

/-- Everything that can go wrong. -/
inductive StoreError where
  | device (fault : DeviceFault)
  | corruption (damage : Damage)
  | invalid (misuse : Misuse)
  | notFound
  | mapNotFound (name : String)
  | mapExists (name : String)
  | sequenceExists (name : String)
  | sequenceNotFound (name : String)
  | sequenceAttributes (name : String) (start min max increment : Int64)
  | sequenceExhausted (name : String)
  | typeMismatch (codec : String) (found : ValueKind)
  | writeConflict (map : String) (owner : TxnId)
  | logPoisoned
  | transactionClosed (id : TxnId)
  | catalog (fault : CatalogFault)
  | settings (fault : SettingsFault)
  /-- A document's text is malformed. -/
  | malformed
deriving DecidableEq, Repr

def DeviceFault.message : DeviceFault → String
  | pastMemoryEnd => "read past end of in-memory file"
  | endOfFile => "read_at reached EOF"
  | readFailed => "read failed"
  | writeFailed => "write failed"
  | syncFailed => "fsync failed"
  | lengthFailed => "len failed"
  | truncateFailed => "truncate failed"
  | diskFull => "disk full"
  | lengthOutOfRange => "number too large to fit in target type"
  | nulInPath => "file name contained an unexpected NUL byte"
  | host => "os error"

def Damage.message : Damage → String
  | offsetOverflow => "cursor offset overflow"
  | pastEnd => "cursor read beyond buffer"
  | notUtf8 => "length-prefixed string not UTF-8"
  | rowTooDeep => "row nesting too deep"
  | unknownTag => "unknown value tag"
  | recordFlag => "redo record flag"
  | recordTrailing => "redo record trailing bytes"
  | recordCodecs => "redo record does not match map codecs"
  | logMagic => "redo magic mismatch"
  | logVersion => "redo format version mismatch"
  | logReserved => "redo reserved header bytes non-zero"
  | logChecksum => "redo header crc mismatch"
  | logSalt => "redo salt mismatch"

def Misuse.message : Misuse → String
  | readRangeOverflow => "read range overflow"
  | rowTooDeep => "row nesting too deep"
  | recordTooLong => "redo record exceeds u32 length"
  | frameTooLong => "redo frame payload exceeds u32 length"
  | reservedSequenceName => "sequence name is reserved"
  | tableSequence => "sequence belongs to a table and cannot be dropped directly"
  | objectIdRange => "object id out of range"
  | savepointAhead => "savepoint is ahead of the undo log"

def CatalogFault.message : CatalogFault → String
  | documentVersion v => "unsupported catalog document version " ++ toString v
  | unknownCodec name => "unknown codec '" ++ name ++ "'"

def PathFault.message : PathFault → String
  | absent => "No such file or directory (os error 2)"
  | notDirectory => "Not a directory (os error 20)"
  | tooLong => "File name too long (os error 36)"

def FileFault.message : FileFault → String
  | path fault => fault.message
  | directory => "Is a directory (os error 21)"
  | notUtf8 => "stream did not contain valid UTF-8"

def SettingsFault.message : SettingsFault → String
  | cacheSize n => "sequence_cache_size must be at least 1, got " ++ toString n.toInt
  | dirtyThreshold => "dirty_memory_threshold must be non-zero"
  | file path fault => "failed to read " ++ path ++ ": " ++ fault.message
  | text => "the settings are malformed"

def StoreError.message : StoreError → String
  | device f => "IO: " ++ f.message
  | corruption d => "corruption: " ++ d.message
  | invalid m => "invalid argument: " ++ m.message
  | notFound => "not found"
  | mapNotFound name => "map '" ++ name ++ "' not found"
  | mapExists name => "map '" ++ name ++ "' already exists"
  | sequenceExists name => "sequence '" ++ name ++ "' already exists"
  | sequenceNotFound name => "sequence '" ++ name ++ "' not found"
  | sequenceAttributes name start min max increment =>
    "invalid sequence '" ++ name ++ "': start=" ++ toString start.toInt ++
      " min=" ++ toString min.toInt ++ " max=" ++ toString max.toInt ++
      " increment=" ++ toString increment.toInt
  | sequenceExhausted name => "sequence '" ++ name ++ "' has run out of numbers"
  | typeMismatch codec found => "type mismatch: codec " ++ codec ++ " cannot handle " ++ found.name
  | writeConflict map owner =>
    "write conflict on map '" ++ map ++ "': key locked by " ++ owner.text
  | logPoisoned => "redo log poisoned by an append that could not be discarded"
  | transactionClosed id => id.text ++ " is no longer active"
  | catalog f => "catalog: " ++ f.message
  | settings f => "config: " ++ f.message
  | malformed => "serialization: malformed document"

end TxnStore
