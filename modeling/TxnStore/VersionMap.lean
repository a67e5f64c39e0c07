import TxnStore.Action
import TxnStore.Table
import TxnStore.Text.Quoted
import TxnStore.Value.Codec
import TxnStore.Version

/-!
# Maps

A map holds versions under keys and counts its rows. The count goes up when a live version is put
where none was, and down when a live version is removed. A tombstone put over a live version leaves
the count as it is: who puts it lowers the count by `dropRow`.
-/

namespace TxnStore

/-- A map of versions with the count of its rows. -/
structure VersionMap where
  name : String
  keyCodec : Codec
  valueCodec : Codec
  slots : Table Value Version
  rows : Int

namespace VersionMap

/-- A map without slots. -/
def empty (name : String) (keyCodec valueCodec : Codec) : VersionMap :=
  ⟨name, keyCodec, valueCodec, Table.empty, 0⟩

/-- The version in a slot. -/
def get? (m : VersionMap) (key : Value) : Option Version := m.slots.get? key

/-- Whether a slot holds a version that is no tombstone. -/
def isLive (v : Option Version) : Bool := v.any fun v => !v.isTombstone

/-- Puts a version into a slot and gives back the one that was there. -/
def put (m : VersionMap) (key : Value) (v : Version) : Option Version × VersionMap :=
  let previous := m.get? key
  (previous,
    { m with
      slots := m.slots.insert key v
      rows := if !isLive previous && !v.isTombstone then m.rows + 1 else m.rows })

/-- Empties a slot and gives back the version that was there. -/
def remove (m : VersionMap) (key : Value) : Option Version × VersionMap :=
  let previous := m.get? key
  (previous,
    { m with
      slots := m.slots.erase key
      rows := if isLive previous then m.rows - 1 else m.rows })

/-- Decides by the version in a slot whether to put another one there, to leave it, or to fail. Gives
back the version that was there before. -/
def replace (key : Value) (decideOn : Option Version → Except StoreError (Option Version)) :
    Action VersionMap (Option Version) := do
  let m ← get
  let previous := m.get? key
  if let some v ← Action.ofExcept (decideOn previous) then
    set (m.put key v).2
  return previous

/-- Lowers the count of rows by one. -/
def dropRow (m : VersionMap) : VersionMap := { m with rows := m.rows - 1 }

/-- The number of rows, which is never shown below zero. -/
def size (m : VersionMap) : Nat := m.rows.toNat

/-- The number of occupied slots, tombstones included. -/
def slotCount (m : VersionMap) : Nat := m.slots.size

def debugText (m : VersionMap) : String :=
  "MemoryMap \x7b name: " ++ Quoted.text m.name ++ ", key_codec: " ++ Quoted.text m.keyCodec.name ++
    ", value_codec: " ++ Quoted.text m.valueCodec.name ++ ", size: " ++ toString m.size ++ " \x7d"

/-- The slots in the order of their keys. -/
def entries (m : VersionMap) : List (Value × Version) := m.slots.toList

/-! ## Laws -/

theorem get?_put (m : VersionMap) (key j : Value) (v : Version) :
    (m.put key v).2.get? j = if j = key then some v else m.get? j :=
  Table.get?_insert m.slots key j v

theorem get?_remove (m : VersionMap) (key j : Value) :
    (m.remove key).2.get? j = if j = key then none else m.get? j :=
  Table.get?_erase m.slots key j

@[simp] theorem get?_dropRow (m : VersionMap) (key : Value) : m.dropRow.get? key = m.get? key := rfl

theorem runOn_replace (m : VersionMap) (key : Value)
    (decideOn : Option Version → Except StoreError (Option Version)) :
    (replace key decideOn).runOn m =
      match decideOn (m.get? key) with
      | .error e => (.error e, m)
      | .ok none => (.ok (m.get? key), m)
      | .ok (some v) => (.ok (m.get? key), (m.put key v).2) := by
  rw [replace, Action.runOn_bind, Action.runOn_get]
  simp only [Action.runOn_bind, Action.runOn_ofExcept]
  rcases decideOn (m.get? key) with err | (_ | v) <;> rfl

end VersionMap

end TxnStore
