import TxnStore.Command.Report
import TxnStore.Disk
import TxnStore.Log
import TxnStore.Settings.Reader

/-!
# Running commands

A command looks at files by their paths and prints its report, or says why there is none. To inspect
a log is to open it: a file that is too short for a header becomes an empty log, and what lies
behind the last frame is cut off. That can be the only change to the files.
-/

namespace TxnStore

/-- Why a command has no report. -/
inductive CommandError where
  | noFile (path : String)
  | unknownCodec (name : String)
  | store (e : StoreError)
deriving DecidableEq, Repr

/-- The wording of a command's error. -/
def CommandError.message : CommandError → String
  | noFile path => path ++ " does not exist"
  | unknownCodec name => "unknown codec '" ++ name ++ "'"
  | store e => e.message

/-- What is printed of a command's error. -/
def CommandError.text (e : CommandError) : String := "error: " ++ e.message ++ "\n"

/-- The characters of the first line of a text. A carriage return right before the line break is
part of the break. -/
def firstLine : List Char → List Char
  | [] => []
  | '\n' :: _ => []
  | '\r' :: '\n' :: _ => []
  | c :: cs => c :: firstLine cs

/-- What a command leaves behind. -/
structure CommandOutcome where
  /-- What is printed. -/
  report : Except CommandError String
  /-- The file that was opened as a log, with its bytes. -/
  written : Option (String × List UInt8)

def CommandOutcome.leaveOn (o : CommandOutcome) (disk : Disk) : Disk :=
  match o.written with
  | some (path, bs) =>
    match disk.placeFrom Disk.commandPlace path with
    | .ok place => disk.put place bs
    | .error _ => disk
  | none => disk

namespace Command

def lift {α : Type} : Except StoreError α → Except CommandError α
  | .ok a => .ok a
  | .error e => .error (.store e)

def readCatalog (look : String → DiskItem) (path : String) :
    Except CommandError (List CatalogEntry) :=
  match (look path).bytes? with
  | some bs => lift (CatalogDocument.read bs)
  | none => .error (.store (.device .host))

def findCodec (name : String) : Except CommandError Codec :=
  match Codec.ofName? name with
  | some c => .ok c
  | none => .error (.unknownCodec name)

/-- Adds the codecs of the maps among entries; of two maps of one name the later counts. -/
def addCodecs (codecs : Table String (Codec × Codec)) :
    List CatalogEntry → Except CommandError (Table String (Codec × Codec))
  | [] => .ok codecs
  | e :: rest =>
    match e.object with
    | .sequence _ => addCodecs codecs rest
    | .map d => do
      let keyCodec ← findCodec d.keyCodec
      let valueCodec ← findCodec d.valueCodec
      addCodecs (codecs.insert e.name (keyCodec, valueCodec)) rest

/-- The codecs of the maps of a catalog, if one is given. -/
def readCodecs (look : String → DiskItem) :
    Option String → Except CommandError (Table String (Codec × Codec))
  | none => .ok Table.empty
  | some path => (readCatalog look path).bind (addCodecs Table.empty)

def reportLog (format : ReportFormat) (codecs : Table String (Codec × Codec)) (log : RedoLog) :
    Except StoreError String := do
  let (frames, _) ← (RedoLog.frames.runOn log).1
  let reports ← frames.mapM (FrameReport.ofFrame codecs)
  return printFrames format log.stats.truncatedBytes reports

/-- Opens the log in a file and reports it. -/
def dumpLog (format : ReportFormat) (path : String) (salt : UInt64)
    (codecs : Table String (Codec × Codec)) (bs : List UInt8) : CommandOutcome :=
  let (opened, device) := RedoLog.openOn (.basic salt .never) (Device.ofHost bs)
  ⟨lift (opened.bind (reportLog format codecs)), some (path, device.bytes)⟩

/-- The outcome of a command that writes nothing. -/
def reading (report : Except CommandError String) : CommandOutcome := ⟨report, none⟩

/-- Runs a command on what lies at paths. -/
def run (format : ReportFormat) (look : String → DiskItem) : Command → CommandOutcome
  | logDump path salt catalog =>
    match look path with
    | .missing _ => reading (.error (.noFile path))
    | item =>
      match readCodecs look catalog, item with
      | .error e, _ => reading (.error e)
      | .ok codecs, .file bs => dumpLog format path salt codecs bs
      | .ok _, _ => reading (.error (.store (.device .host)))
  | catalogDump path => reading ((readCatalog look path).map (printEntries format))
  | settingsCheck path =>
    reading (lift ((Settings.ofFile path (look path)).bind (printSettings format)))

end Command

def Request.run (r : Request) (look : String → DiskItem) : CommandOutcome :=
  r.command.run r.format look

def Command.paths : Command → List String
  | logDump path _ catalog => path :: catalog.toList
  | catalogDump path => [path]
  | settingsCheck path => [path]

end TxnStore
