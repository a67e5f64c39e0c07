import TxnStore.Command.Run

/-!
# The command line

Reads the files that a command looks at, runs it, and writes back what it changed. A command line
that is none ends with code 2, and a command without a report with code 1.
-/

namespace TxnStore

/-- Why a path of the host leads nowhere, by the host's number for the failure, which may come
negated. -/
def pathFault? (code : UInt32) : Option PathFault :=
  match (min code (-code)).toNat with
  | 2 => some .absent
  | 20 => some .notDirectory
  | 36 => some .tooLong
  | _ => none

/-- What lies at a path of the host. -/
def lookAt (path : String) : IO DiskItem := do
  try
    let bs ← IO.FS.readBinFile path
    return .file bs.toList
  catch
    | .noFileOrDirectory _ code _ | .inappropriateType _ code _ | .invalidArgument _ code _ =>
      return ((pathFault? code).map .missing).getD .directory
    | _ => return .directory

/-- What lies at paths of the host. -/
def lookAll : List String → IO (List (String × DiskItem))
  | [] => return []
  | path :: rest => do
    let item ← lookAt path
    return (path, item) :: (← lookAll rest)

/-- Writes a file of the host over, and tells whether that went well. -/
def writeBack (path : String) (bs : List UInt8) : IO Bool := do
  try
    let file ← IO.FS.Handle.mk path .readWrite
    file.write ⟨bs.toArray⟩
    file.truncate
    return true
  catch _ => return false

/-- Runs a request on the files of the host and gives the exit code. -/
def runRequest (r : Request) : IO UInt32 := do
  let found ← lookAll r.command.paths
  let outcome := r.run fun path => (found.lookup path).getD (.missing .absent)
  let kept ←
    match outcome.written with
    | some (path, bs) =>
      if found.lookup path = some (.file bs) then pure true else writeBack path bs
    | none => pure true
  match if kept then outcome.report else .error (.store (.device .host)) with
  | .ok text =>
    (← IO.getStdout).putStr text
    return 0
  | .error e =>
    (← IO.getStderr).putStr e.text
    return 1

end TxnStore

/-- Runs the command that the arguments name. -/
def main (args : List String) : IO UInt32 := do
  match TxnStore.Request.ofArgs? args with
  | some r => TxnStore.runRequest r
  | none =>
    (← IO.getStderr).putStrLn "usage"
    return 2
