import TxnStore.Device

/-!
# Sparse files

A file of the host takes room for what was written to it, and none for the gaps between, which read
as zeros. So its size may lie far behind its last byte.
-/

namespace TxnStore

/-- A piece of a file: where it starts, and its bytes. -/
abbrev Piece := Nat × List UInt8

namespace Piece

/-- The `n` bytes at an offset of a file made of pieces. -/
def region (offset n : Nat) : List Piece → List UInt8
  | [] => List.replicate n 0
  | (start, data) :: older =>
    -- The newer piece hides the part of the older ones that it covers.
    let under := region offset n older
    let gap := start - offset
    let seen := (data.drop (offset - start)).take (n - gap)
    under.take gap ++ seen ++ under.drop (gap + seen.length)

/-- The pieces without what lies at an offset or behind it. -/
def cut (n : Nat) (pieces : List Piece) : List Piece :=
  pieces.map fun p => (p.1, p.2.take (n - p.1))

end Piece

/-- A file of the host. -/
structure SparseFile where
  size : Nat
  /-- What was written, later writes in front. -/
  pieces : List Piece
deriving DecidableEq, Repr

namespace SparseFile

/-- A file without bytes. -/
def empty : SparseFile := ⟨0, []⟩

def toBytes (f : SparseFile) : List UInt8 := Piece.region 0 f.size f.pieces

/-- The file once `data` is stored at an offset; storing nothing does not extend it. -/
def store (f : SparseFile) (offset : Nat) (data : List UInt8) : SparseFile :=
  if data = [] then f
  -- What an earlier cut took away must not show in a gap, so older pieces end at the size.
  else ⟨max f.size (offset + data.length), (offset, data) :: Piece.cut f.size f.pieces⟩

/-- The file cut or extended with zeros to a length. -/
def resize (f : SparseFile) (n : Nat) : SparseFile := ⟨n, Piece.cut (min n f.size) f.pieces⟩

/-! ## Calls -/

/-- How many bytes a file of the host can have. Its blocks of 4096 bytes have numbers of 32 bits,
and the last of these numbers is not used. -/
def capacity : Nat := 0xffffffff000

def read (offset n : Nat) : Action SparseFile (List UInt8) := do
  let f ← get
  match Device.hostReadFault f.size offset n with
  | some e => throw e
  | none => return Piece.region offset n f.pieces

/-- Stores `data` at an offset. If there is no room for all of it, the part that fits is stored. -/
def write (offset : Nat) (data : List UInt8) : Action SparseFile Unit := do
  let fitting := data.take (capacity - offset)
  modify (·.store offset fitting)
  if fitting.length < data.length then throw (.device .host)

/-- Cuts or extends the file to a number of bytes. -/
def truncate (n : Nat) : Action SparseFile Unit := do
  if Device.hostLimit ≤ n then throw (.device .lengthOutOfRange)
  if capacity < n then throw (.device .host)
  modify (·.resize n)

end SparseFile

/-- A file to be read and written at offsets. -/
inductive OpenFile where
  | memory (device : Device)
  | host (file : SparseFile)
deriving DecidableEq, Repr

namespace OpenFile

/-- A new file of the kind that a word stands for; it is in memory where there is no such word. -/
def ofKind (s : String) : OpenFile :=
  if s = "file" then host .empty else memory (.ofBytes [])

/-- Runs the action for the kind of the file. -/
def act {α : Type} (onMemory : Action Device α) (onHost : Action SparseFile α) :
    Action OpenFile α :=
  Action.mk fun
    | memory d => (onMemory.runOn d).map id memory
    | host f => (onHost.runOn f).map id host

/-- The number of bytes. -/
def size : OpenFile → Nat
  | memory d => d.size
  | host f => f.size

def bytes : OpenFile → List UInt8
  | memory d => d.bytes
  | host f => f.toBytes

def read (offset n : Nat) : Action OpenFile (List UInt8) :=
  act (Device.read offset n) (SparseFile.read offset n)

def write (offset : Nat) (data : List UInt8) : Action OpenFile Unit :=
  act (Device.write offset data) (SparseFile.write offset data)

/-- Cuts or extends the file to a number of bytes. -/
def truncate (n : Nat) : Action OpenFile Unit := act (Device.truncate n) (SparseFile.truncate n)

/-- Makes sure that what was stored lasts. -/
def sync : Action OpenFile Unit := act Device.sync (pure ())

end OpenFile

end TxnStore
