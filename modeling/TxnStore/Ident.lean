/-!
# Identifiers

Transactions, log positions and catalog objects are named by numbers of fixed width. Each kind has
its own type, so that one is never taken for another.
-/

namespace TxnStore

/-- The number of a transaction, unique among the transactions of one engine. -/
structure TxnId where
  val : UInt64
deriving DecidableEq, Repr, Inhabited

/-- The sequence number of a frame in the redo log. -/
structure Lsn where
  val : UInt64
deriving DecidableEq, Repr, Inhabited

/-- The number of an object of the catalog. -/
structure ObjectId where
  val : UInt32
deriving DecidableEq, Repr, Inhabited

instance : Ord TxnId := ⟨fun a b => compare a.val b.val⟩

namespace TxnId

/-- A transaction is shown as `txn_` followed by its number. -/
def text (t : TxnId) : String := "txn_" ++ toString t.val.toNat

end TxnId

namespace Lsn

def next (l : Lsn) : Lsn := ⟨l.val + 1⟩

def text (l : Lsn) : String := toString l.val.toNat

end Lsn

namespace ObjectId

def text (o : ObjectId) : String := toString o.val.toNat

end ObjectId

end TxnStore
