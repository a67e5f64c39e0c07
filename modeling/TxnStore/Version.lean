import TxnStore.Ident
import TxnStore.Value

/-!
# Versions

A slot of a map holds one version of its value: either a committed one, or one that an unfinished
transaction wrote. The unfinished one also carries the payload committed last, which all other
transactions read until it is committed. A payload that is missing is a delete.
-/

namespace TxnStore

/-- A value with what decides who may see it. -/
structure Version where
  payload : Option Value
  owner : Option TxnId
  committed : Bool
  /-- The payload committed before this one was written. -/
  previous : Option Value
deriving DecidableEq, Repr

namespace Version

/-- A version that a transaction has written and not yet committed. -/
def written (owner : TxnId) (payload previous : Option Value) : Version :=
  ⟨payload, some owner, false, previous⟩

/-- A version that is committed from the start. -/
def settled (payload : Option Value) : Version := ⟨payload, none, true, none⟩

/-- The version once its transaction commits: nobody owns it, and nothing lies behind it. -/
def commit (v : Version) : Version := { v with committed := true, owner := none, previous := none }

/-- The version once it is undone: what was there before. -/
def rollback (_ : Version) (old : Version) : Version := old

/-- Whether the version is a committed delete. -/
def isTombstone (v : Version) : Bool := v.committed && v.payload.isNone

/-- The payload that transactions other than the owner read. -/
def lastCommitted (v : Version) : Option Value := if v.committed then v.payload else v.previous

/-- Whether a transaction wrote this version and has not committed it. -/
def isOwnedBy (v : Version) (t : TxnId) : Bool := !v.committed && v.owner == some t

/-- The payload that a transaction reads. -/
def visibleTo (v : Version) (t : TxnId) : Option Value :=
  if v.committed || v.owner == some t then v.payload else v.previous

end Version

end TxnStore
