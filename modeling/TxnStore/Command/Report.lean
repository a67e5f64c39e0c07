import TxnStore.Catalog.Document
import TxnStore.Command
import TxnStore.Log.Frame
import TxnStore.Settings
import TxnStore.Value.Document
import TxnStore.Value.Literal

/-!
# Reports

What a command prints: the frames of a log with their records, the entries of a catalog, or
settings. Each report has a text of lines and a JSON document. A record whose map is not in the
catalog is reported by its size alone.
-/

namespace TxnStore

/-! ## Records and frames -/

structure RecordReport where
  map : String
  /-- The number of bytes of the body. -/
  size : Nat
  /-- The key and the payload, where they can be read. -/
  content : Option (Value × Option Value)

namespace RecordReport

/-- The report of a record, with the codecs of the maps that are known. -/
def ofRecord (codecs : Table String (Codec × Codec)) (r : RawRecord) :
    Except StoreError RecordReport :=
  match codecs.get? r.map with
  | none => .ok ⟨r.map, r.body.length, none⟩
  | some (keyCodec, valueCodec) =>
    match r.decode keyCodec valueCodec with
    | .ok content => .ok ⟨r.map, r.body.length, some content⟩
    | .error e => .error e

def line (r : RecordReport) : String :=
  "  " ++ r.map ++
    match r.content with
    | none => " <" ++ toString r.size ++ " bytes>"
    | some (key, none) => " DELETE " ++ key.display
    | some (key, some v) => " PUT " ++ key.display ++ " = " ++ v.display

/-- The members of a record's document that tell its content. -/
def contentMembers : Option (Value × Option Value) → List (String × Json)
  | none => []
  | some (key, none) => [("key", key.toJson), ("delete", .bool true)]
  | some (key, some v) => [("key", key.toJson), ("value", v.toJson), ("delete", .bool false)]

/-- The document of a record. -/
def toJson (r : RecordReport) : Json :=
  .struct ([("map", .text r.map), ("bytes", .int r.size)] ++ contentMembers r.content)

end RecordReport

structure FrameReport where
  lsn : Lsn
  txn : TxnId
  /-- The number of bytes of the payload. -/
  size : Nat
  records : List RecordReport

namespace FrameReport

def ofFrame (codecs : Table String (Codec × Codec)) (f : Frame) :
    Except StoreError FrameReport := do
  let records ← (← f.records).mapM (RecordReport.ofRecord codecs)
  return ⟨f.lsn, f.txn, f.payload.length, records⟩

def lines (f : FrameReport) : List String :=
  ("lsn " ++ f.lsn.text ++ " " ++ f.txn.text ++ " (" ++ toString f.size ++ " bytes)") ::
    f.records.map RecordReport.line

/-- The document of a frame. -/
def toJson (f : FrameReport) : Json :=
  .struct [("lsn", .int f.lsn.val.toNat), ("txn", .int f.txn.val.toNat), ("bytes", .int f.size),
    ("records", .array (f.records.map RecordReport.toJson))]

end FrameReport

/-! ## Printing -/

def printLines (lines : List String) : String := String.join (lines.map (· ++ "\n"))

/-- A document with a line break behind it. -/
def printJson (j : Json) : String := j.pretty ++ "\n"

/-- A text extended with blanks behind it to a width. -/
def padBehind (width : Nat) (s : String) : String := s.pushn ' ' (width - s.length)

/-- A text extended with blanks in front of it to a width. -/
def padBefore (width : Nat) (s : String) : String := "".pushn ' ' (width - s.length) ++ s

/-- The report of a log, which had so many bytes behind its last frame. -/
def printFrames (format : ReportFormat) (discarded : Nat) (frames : List FrameReport) : String :=
  match format with
  | .text =>
    printLines ((toString frames.length ++ " frame(s), " ++ toString discarded ++
      " truncated byte(s)") :: frames.flatMap FrameReport.lines)
  | .json => printJson (.array (frames.map FrameReport.toJson))

namespace CatalogEntry

/-- What an entry defines, in one line. -/
def summary (e : CatalogEntry) : String :=
  match e.object with
  | .sequence d => d.createSql
  | .map d => "key " ++ d.keyCodec ++ " value " ++ d.valueCodec

def line (e : CatalogEntry) : String :=
  padBehind 8 e.kind.name ++ " " ++ padBefore 6 e.id.text ++ "  " ++ e.summary

def toReport (e : CatalogEntry) : Json :=
  .struct [("kind", .text e.kind.name), ("id", .int e.id.val.toNat), ("name", .text e.name),
    ("definition", .text e.summary)]

end CatalogEntry

def printEntries (format : ReportFormat) (entries : List CatalogEntry) : String :=
  match format with
  | .text => printLines (entries.map CatalogEntry.line)
  | .json => printJson (.array (entries.map CatalogEntry.toReport))

/-- The document of settings. -/
def Settings.toJson (s : Settings) : Json :=
  .struct [("default_isolation", .text s.defaultIsolation.name),
    ("redo_sync", .text s.logSync.name),
    ("dirty_memory_threshold", .int s.dirtyThreshold.toNat),
    ("sequence_cache_size", .int s.sequenceCache.toInt), ("redo_salt", .int s.logSalt.toNat)]

/-- The report of settings, which is again a text of settings. -/
def printSettings (format : ReportFormat) (s : Settings) : Except StoreError String :=
  match format with
  | .text => s.render
  | .json => .ok (printJson s.toJson)

end TxnStore
