import TxnStore.Engine.Replay
import TxnStore.Proofs.Transactions.Slots

/-!
# Histories of an engine

What happens to an engine over its life: transactions, maps that are created and dropped, and stops
after which an engine is opened again over the catalog and the log that are left. Beside it goes a
machine of overlays, to which a stop means that all unfinished transactions are lost and nothing
else.
-/

namespace TxnStore

open TxnStore.Action

/-- What can happen to an engine. -/
inductive EngineEvent where
  | call (c : TxnCall)
  | createMap (name : String) (keyCodec valueCodec : Codec)
  | dropMap (name : String)
  /-- The engine is lost, and another one is opened in its place. -/
  | restart
deriving DecidableEq, Repr

def TxnCall.isCommit : TxnCall → Bool
  | commit _ => true
  | _ => false

namespace EngineEvent

/-- Whether a transaction is committed. -/
def isCommit : EngineEvent → Bool
  | call c => c.isCommit
  | _ => false

/-- Whether a transaction is started. -/
def isBegin : EngineEvent → Bool
  | call c => c.isBegin
  | _ => false

end EngineEvent

/-! ## The engine -/

namespace Engine

/-- Opens the log on the device that another one leaves. -/
def reopenLog (options : LogOptions) : Option RedoLog → Except StoreError (Option RedoLog)
  | none => .ok none
  | some log =>
    match (RedoLog.openOn options log.device).1 with
    | .ok log => .ok (some log)
    | .error err => .error err

/-- Opens an engine over the catalog and the log that another one leaves, and replays the log. -/
def restart (options : LogOptions) (e : Engine) : Except StoreError Engine :=
  match reopenLog options e.log with
  | .error err => .error err
  | .ok log =>
    match openWith e.settings e.catalog log (e.metrics.map fun _ => .zero) with
    | .error err => .error err
    | .ok e =>
      match recover.runOn e with
      | (.error err, _) => .error err
      | (.ok _, e) => .ok e

/-- The engine after an event. Only a restart can leave none. -/
def undergo (options : LogOptions) (e : Engine) : EngineEvent → Except StoreError Engine
  | .call c => .ok (c.action.runOn e).2
  | .createMap name keyCodec valueCodec => .ok ((createMap name keyCodec valueCodec).runOn e).2
  | .dropMap name => .ok ((dropMap name).runOn e).2
  | .restart => e.restart options

end Engine

def refusal? (answer : Except StoreError TxnAnswer) : Option StoreError :=
  match answer with
  | .ok _ => none
  | .error err => some err

/-! ## The machine -/

namespace OverlayMachine

def openMap (r : OverlayMachine) (name : String) : OverlayMachine :=
  { r with isOpen := fun n => n = name || r.isOpen n }

/-- The machine with one map less open. -/
def closeMap (r : OverlayMachine) (name : String) : OverlayMachine :=
  { r with isOpen := fun n => n ≠ name && r.isOpen n }

/-- The machine without the unfinished transactions. -/
def restart (r : OverlayMachine) : OverlayMachine :=
  { r with
    overlay? := fun _ => none
    begun := []
    nextTxn := ⟨1⟩ }

/-- The machine after an event. A commit counts unless it was answered with an error. -/
def undergo (r : OverlayMachine) (refusal : Option StoreError) : EngineEvent → OverlayMachine
  | .call c => (r.step refusal c).2
  | .createMap name _ _ => r.openMap name
  | .dropMap name => r.closeMap name
  | .restart => r.restart

/-! ### What a machine keeps -/

variable {r r' : OverlayMachine} {t : TxnId} {o : Overlay}

/-- A machine goes on without a commit: the committed payloads stay, and only places of open maps
come to be held. -/
structure KeepsCommitted (r r' : OverlayMachine) : Prop where
  isOpen : r'.isOpen = r.isOpen
  committed : r'.committed = r.committed
  holds : ∀ {u p}, r'.holds u p = true → r.holds u p = true ∨ r.isOpen p.map = true

namespace KeepsCommitted

theorem refl (r : OverlayMachine) : KeepsCommitted r r := ⟨rfl, rfl, fun h => .inl h⟩

/-- A transaction that holds no more places than before. -/
theorem shrink {o' : Option Overlay}
    (hsub : ∀ p, (o'.any fun o => (o.entry? p).isSome) = true → r.holds t p = true) :
    KeepsCommitted r (r.setOverlay t o') := by
  refine ⟨rfl, rfl, fun {u p} hu => .inl ?_⟩
  rw [holds_setOverlay] at hu
  split at hu
  · next hut => exact hut ▸ hsub p hu
  · exact hu

theorem ended (r : OverlayMachine) (t : TxnId) : KeepsCommitted r (r.setOverlay t none) :=
  shrink fun _ hp => absurd hp (by simp)

theorem start (r : OverlayMachine) : KeepsCommitted r r.start := by
  have hempty : KeepsCommitted r (r.setOverlay r.nextTxn (some [])) :=
    shrink fun _ hp => absurd hp (by simp)
  exact ⟨hempty.isOpen, hempty.committed, hempty.holds⟩

theorem onOverlay {α : Type} {f : Overlay → Except StoreError α × OverlayMachine}
    (hf : ∀ o, r.overlay? t = some o → KeepsCommitted r (f o).2) :
    KeepsCommitted r (r.onOverlay t f).2 := by
  unfold OverlayMachine.onOverlay
  cases ho : r.overlay? t with
  | none => exact refl r
  | some o => exact hf o ho

theorem write (r : OverlayMachine) (t : TxnId) (p : Place) (payload : Option Value) :
    KeepsCommitted r (r.write t p payload).2 := by
  apply onOverlay
  intro o ho
  cases hopen : r.isOpen p.map with
  | false => exact refl r
  | true =>
    simp only [Bool.not_true, Bool.false_eq_true, if_false]
    -- Whatever refuses the write leaves the machine as it is.
    split
    · exact refl r
    · split
      · exact refl r
      · -- The place that is written is the only one that may be new.
        refine ⟨rfl, rfl, fun {u p'} hu => ?_⟩
        rw [holds_setOverlay] at hu
        split at hu
        · -- The writer may hold one more place, the others hold what they held.
          next hut =>
          rw [Option.any_some, Overlay.entry?_cons] at hu
          split at hu
          · next hp =>
            right
            rw [hp]
            exact hopen
          · exact .inl (hut ▸ holds_iff.mpr ⟨o, ho, hu⟩)
        · exact .inl hu

theorem read (r : OverlayMachine) (t : TxnId) (p : Place) : KeepsCommitted r (r.read t p).2 := by
  apply onOverlay
  intro o _
  split <;> exact refl r

theorem savepoint (r : OverlayMachine) (t : TxnId) : KeepsCommitted r (r.savepoint t).2 := by
  apply onOverlay
  intro o _
  exact refl r

theorem rollbackTo (r : OverlayMachine) (t : TxnId) (n : Nat) :
    KeepsCommitted r (r.rollbackTo t n).2 := by
  apply onOverlay
  intro o ho
  split
  · exact refl r
  · apply shrink
    intro p hp
    exact holds_iff.mpr ⟨o, ho, Overlay.isSome_entry?_of_drop hp⟩

theorem rollback (r : OverlayMachine) (t : TxnId) : KeepsCommitted r (r.rollback t).2 := by
  apply onOverlay
  intro o _
  exact ended r t

/-- A commit that is refused. -/
theorem refused (r : OverlayMachine) (err : StoreError) (t : TxnId) :
    KeepsCommitted r (r.commit (some err) t).2 := by
  apply onOverlay
  intro o _
  exact ended r t

/-- Only commits change what is committed. -/
theorem step (r : OverlayMachine) (refusal : Option StoreError) {c : TxnCall}
    (hc : c.isCommit = false) : KeepsCommitted r (r.step refusal c).2 := by
  cases c with
  | begin isolation => exact start r
  | read t p => exact read r t p
  | put t p value => exact write r t p (some value)
  | delete t p => exact write r t p none
  | savepoint t => exact savepoint r t
  | rollbackTo t n => exact rollbackTo r t n
  | commit t => simp [TxnCall.isCommit] at hc
  | rollback t => exact rollback r t
  | drop t => exact rollback r t

end KeepsCommitted

theorem openMap_of_isOpen {name : String} (h : r.isOpen name = true) : r.openMap name = r := by
  have hsame : (fun n => n = name || r.isOpen n) = r.isOpen := by
    funext n
    by_cases hn : n = name <;> simp [hn, h]
  rw [openMap, hsame]

theorem closeMap_of_not_isOpen {name : String} (h : r.isOpen name = false) :
    r.closeMap name = r := by
  have hsame : (fun n => n ≠ name && r.isOpen n) = r.isOpen := by
    funext n
    by_cases hn : n = name <;> simp [hn, h]
  rw [closeMap, hsame]

/-- What a call does follows from its answer. -/
theorem step_refusal? (r : OverlayMachine) (verdict : Option StoreError) (c : TxnCall) :
    (r.step (refusal? (r.step verdict c).1) c).2 = (r.step verdict c).2 := by
  cases c with
  | commit t =>
    simp only [step, answering, commit, onOverlay]
    -- Only a commit learns anything from the verdict, and it answers with just that.
    cases r.overlay? t with
    | none => rfl
    | some o => cases verdict <;> rfl
  | _ => rfl

end OverlayMachine

/-- The error with which an engine answers an event. -/
def Engine.refusalOf (e : Engine) : EngineEvent → Option StoreError
  | .call c => refusal? (c.action.runOn e).1
  | _ => none

/-- An engine and a machine after events one after the other. -/
def Engine.runBeside (options : LogOptions) (e : Engine) (r : OverlayMachine) :
    List EngineEvent → Except StoreError (Engine × OverlayMachine)
  | [] => .ok (e, r)
  | ev :: rest =>
    match e.undergo options ev with
    | .error err => .error err
    | .ok e' => runBeside options e' (r.undergo (e.refusalOf ev) ev) rest

/-! ## The names of maps -/

/-- The maps that are open and those that were dropped, by name. -/
structure MapNames where
  isOpen : String → Bool
  dropped : String → Bool

namespace MapNames

def step (n : MapNames) : EngineEvent → MapNames
  | .createMap name _ _ => { n with isOpen := fun other => other = name || n.isOpen other }
  | .dropMap name =>
    { isOpen := fun other => other ≠ name && n.isOpen other
      dropped := fun other => (other = name && n.isOpen name) || n.dropped other }
  | _ => n

/-- Whether an event leaves the names of dropped maps alone. -/
def permits (n : MapNames) : EngineEvent → Bool
  | .createMap name _ _ => !n.dropped name
  | _ => true

/-- Whether no map is created under the name of one that was dropped before. -/
def neverReused (n : MapNames) : List EngineEvent → Bool
  | [] => true
  | ev :: rest => n.permits ev && (n.step ev).neverReused rest

end MapNames

end TxnStore
