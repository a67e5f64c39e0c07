import TxnStore.Action
import TxnStore.Bytes.BigEndian
import TxnStore.Bytes.Text

/-!
# Reading from a run of bytes

A cursor is a place in a run of bytes: how many bytes were read, and which are left. A reader moves
the cursor and gives a value or an error; after an error the cursor stands where reading stopped.
-/

namespace TxnStore

/-- A place in a run of bytes. -/
structure Cursor where
  /-- How many bytes were read. -/
  offset : Nat
  /-- The bytes that are left. -/
  rest : List UInt8
deriving Repr

/-- A computation that reads from a cursor. -/
abbrev Reader (α : Type) := Action Cursor α

namespace Cursor

/-- The place before the first of the bytes. -/
def ofBytes (bs : List UInt8) : Cursor := ⟨0, bs⟩

/-- How many bytes are left. -/
def remaining (c : Cursor) : Nat := c.rest.length

/-- Whether every byte was read. -/
def isExhausted (c : Cursor) : Bool := c.rest.isEmpty

/-- The place `n` bytes further on. -/
def advance (c : Cursor) (n : Nat) : Cursor := ⟨c.offset + n, c.rest.drop n⟩

def debugText (c : Cursor) : String :=
  "Cursor \x7b off: " ++ toString c.offset ++ ", remaining: " ++ toString c.remaining ++ " \x7d"

end Cursor

namespace Reader

/-- The value that a reader finds at the start of the bytes. -/
def read {α : Type} (r : Reader α) (bs : List UInt8) : Except StoreError α :=
  (Action.runOn r (Cursor.ofBytes bs)).1

/-- The next `n` bytes. An offset beyond 64 bits is refused before a run that ends too soon. -/
def take (n : Nat) : Reader (List UInt8) := do
  let c ← get
  if n ≤ c.remaining then
    set (c.advance n)
    return c.rest.take n
  else if c.offset + n < UInt64.size then
    throw (.corruption .pastEnd)
  else
    throw (.corruption .offsetOverflow)

/-- The next byte. -/
def byte : Reader UInt8 := do
  let bs ← take 1
  return UInt8.ofNat (BigEndian.decode bs)

/-- The next four bytes as a word. -/
def uint32 : Reader UInt32 := BigEndian.toUInt32 <$> take 4

/-- The next eight bytes as a word. -/
def uint64 : Reader UInt64 := BigEndian.toUInt64 <$> take 8

/-- The next eight bytes as a signed word. -/
def int64 : Reader Int64 := BigEndian.toInt64 <$> take 8

/-- A run of bytes behind its length of four bytes. -/
def run : Reader (List UInt8) := do
  let n ← uint32
  take n.toNat

/-- A text behind its length of four bytes. -/
def text : Reader String := do
  let bs ← run
  match Text.ofBytes? bs with
  | some s => return s
  | none => throw (.corruption .notUtf8)

/-- Reads a number of values one after the other. -/
def replicate {α : Type} : Nat → Reader α → Reader (List α)
  | 0, _ => return []
  | n + 1, r => do
    let a ← r
    let as ← replicate n r
    return a :: as

end Reader

end TxnStore
