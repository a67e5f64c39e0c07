import TxnStore.Action

/-!
# Devices

A device is a file read and written at positions: its bytes, how it answers a read past its end, and
which of its calls are set to fail. A write past the end fills the gap with zeros. A write that is
set to fail may first store some leading bytes of its data, as when power is lost.
-/

namespace TxnStore

/-- Where the bytes of a device lie. -/
inductive Backing where
  | memory
  | host
deriving DecidableEq, Repr

/-- The calls of a device that are set to fail. -/
structure DeviceFaults where
  read : Bool
  write : Bool
  sync : Bool
  length : Bool
  truncate : Bool
  /-- How many bytes a failing write stores first; none at all where this is missing. -/
  torn : Option Nat
deriving DecidableEq, Repr

/-- Every call succeeds. -/
def DeviceFaults.none : DeviceFaults := ⟨false, false, false, false, false, Option.none⟩

/-- A file with its faults. -/
structure Device where
  bytes : List UInt8
  backing : Backing
  faults : DeviceFaults
deriving DecidableEq, Repr

namespace Device

/-- A file in memory without faults. -/
def ofBytes (bs : List UInt8) : Device := ⟨bs, .memory, .none⟩

def ofHost (bs : List UInt8) : Device := ⟨bs, .host, .none⟩

instance : Inhabited Device := ⟨ofBytes []⟩

def size (d : Device) : Nat := d.bytes.length

/-- The bytes cut or extended with zeros to a length. -/
def resize (bs : List UInt8) (n : Nat) : List UInt8 :=
  bs.take n ++ List.replicate (n - bs.length) 0

/-- The bytes with `data` laid over them at an offset. -/
def overlay (bs : List UInt8) (offset : Nat) (data : List UInt8) : List UInt8 :=
  resize bs offset ++ data ++ bs.drop (offset + data.length)

/-- The offsets and lengths that can be asked of a host file lie below this bound. -/
def hostLimit : Nat := 0x8000000000000000

/-- The error of a read of `n` bytes at an offset of a host file, if there is one. -/
def hostReadFault (size offset n : Nat) : Option StoreError :=
  if n = 0 ∨ offset + n ≤ size then none
  else if hostLimit ≤ offset + n then some (.device .host)
  else some (.device .endOfFile)

/-- The error of a read of `n` bytes at an offset of a file in memory, if there is one. -/
def memoryReadFault (size offset n : Nat) : Option StoreError :=
  if offset + n ≤ size then none
  else if UInt64.size ≤ offset + n then some (.invalid .readRangeOverflow)
  else some (.device .pastMemoryEnd)

/-- The error of a read of `n` bytes at an offset, if there is one. -/
def readFault (d : Device) (offset n : Nat) : Option StoreError :=
  if d.faults.read then some (.device .readFailed)
  else
    match d.backing with
    | .memory => memoryReadFault d.size offset n
    | .host => hostReadFault d.size offset n

def read (offset n : Nat) : Action Device (List UInt8) := do
  let d ← get
  match d.readFault offset n with
  | some e => throw e
  | none => return (d.bytes.drop offset).take n

/-- The device once `data` is stored at an offset; storing nothing does not extend a host file. -/
def store (d : Device) (offset : Nat) (data : List UInt8) : Device :=
  match d.backing, data with
  | .host, [] => d
  | _, data => { d with bytes := overlay d.bytes offset data }

def write (offset : Nat) (data : List UInt8) : Action Device Unit := do
  let d ← get
  if d.faults.write then
    match d.faults.torn with
    | some n => set (d.store offset (data.take n))
    | none => pure ()
    throw (.device .writeFailed)
  else
    set (d.store offset data)

/-- Makes sure that what was stored lasts. -/
def sync : Action Device Unit := do
  let d ← get
  if d.faults.sync then throw (.device .syncFailed)

def length : Action Device Nat := do
  let d ← get
  if d.faults.length then throw (.device .lengthFailed)
  return d.size

/-- Cuts or extends the device to a number of bytes. -/
def truncate (n : Nat) : Action Device Unit := do
  let d ← get
  if d.faults.truncate then throw (.device .truncateFailed)
  set { d with bytes := resize d.bytes n }

/-! ## Behind the faults -/

/-- Inverts the byte at an offset. It is read as from memory. -/
def invertByte (d : Device) (offset : Nat) : Except StoreError Device :=
  match memoryReadFault d.size offset 1 with
  | some e => .error e
  | none => .ok { d with bytes := d.bytes.modify offset (· ^^^ 0xFF) }

/-- Lays bytes over the device, whatever its faults. -/
def poke (d : Device) (offset : Nat) (data : List UInt8) : Device :=
  { d with bytes := overlay d.bytes offset data }

/-- Cuts or extends the device, whatever its faults. -/
def cut (d : Device) (n : Nat) : Device := { d with bytes := resize d.bytes n }

end Device

end TxnStore
