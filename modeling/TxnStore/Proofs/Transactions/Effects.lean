import TxnStore.Proofs.Transactions.Overlay

/-!
# The effects of calls

What a call of a transaction can do to an engine, each case with its answer and with the engine that
it leaves. Whatever is kept by all calls is shown case by case from here.
-/

namespace TxnStore

open TxnStore.Action

/-- The call that writes a payload, or a delete. -/
def TxnCall.write (t : TxnId) (p : Place) : Option Value → TxnCall
  | some v => .put t p v
  | none => .delete t p

/-- The answer to a call that has written a payload, or a delete. -/
def TxnAnswer.written : Option Value → TxnAnswer
  | some _ => .done
  | none => .deleted true

/-- The effect of a call on an engine: what is answered, and the engine afterwards. -/
inductive Effect (e : Engine) : TxnCall → Except StoreError TxnAnswer → Engine → Prop where
  | refused {c : TxnCall} {err : StoreError} : Effect e c (.error err) e
  | found {t : TxnId} {p : Place} {payload : Option Value} :
      Effect e (.read t p) (.ok (.found payload)) e
  | saved {t : TxnId} {n : Nat} : Effect e (.savepoint t) (.ok (.saved n)) e
  /-- What is not seen cannot be deleted. -/
  | unseen {t : TxnId} {p : Place} : Effect e (.delete t p) (.ok (.deleted false)) e
  /-- A transaction that is over already was given up. -/
  | closed {t : TxnId} : Effect e (.drop t) (.ok .done) e
  | begun {isolation : Option Isolation} :
      Effect e (.begin isolation) (.ok (.begun e.nextTxn))
        ((Engine.beginWith (isolation.getD e.settings.defaultIsolation)).runOn e).2
  | written {t : TxnId} {txn : LiveTransaction} {p : Place} {payload : Option Value}
      {m : VersionMap} {v : Version} :
      e.live.get? t = some txn → e.maps.get? p.map = some m →
        Engine.versionToWrite t p.map payload (m.get? p.key) = .ok (some v) →
        Effect e (.write t p payload) (.ok (.written payload))
          (e.afterWrite t txn.log m p.map p.key v)
  | wentBack {t : TxnId} {txn : LiveTransaction} {n : Nat} :
      e.live.get? t = some txn → n ≤ txn.log.length →
        Effect e (.rollbackTo t n) (.ok .done) (e.afterRollbackTo t txn.log n)
  | ended {t : TxnId} {txn : LiveTransaction} {c : TxnCall} :
      e.live.get? t = some txn → c = .rollback t ∨ c = .drop t →
        Effect e c (.ok .done) (e.aborted t txn.log)
  /-- The writes of a transaction could not be logged. -/
  | undone {t : TxnId} {txn : LiveTransaction} {err : StoreError} {e' : Engine} :
      e.live.get? t = some txn → (Engine.logWrites t txn.log).runOn e = (.error err, e') →
        Effect e (.commit t) (.error err) (e'.aborted t txn.log)
  | committed {t : TxnId} {txn : LiveTransaction} {e' : Engine} :
      e.live.get? t = some txn → (Engine.logWrites t txn.log).runOn e = (.ok (), e') →
        Effect e (.commit t) (.ok .done) (e'.committed t txn.log)

namespace TxnCall

/-- A write is refused, or not made, or it changes one slot. -/
theorem effect_write (e : Engine) (t : TxnId) (p : Place) (payload : Option Value) :
    let x := (Engine.write t p.map p.key payload).runOn e
    (∃ err, x = (.error err, e)) ∨ (payload = none ∧ x = (.ok false, e)) ∨
      ∃ txn m v, e.live.get? t = some txn ∧ e.maps.get? p.map = some m ∧
        Engine.versionToWrite t p.map payload (m.get? p.key) = .ok (some v) ∧
        x = (.ok true, e.afterWrite t txn.log m p.map p.key v) := by
  intro x
  have hx : x = _ := Engine.runOn_write t p.map p.key payload e
  -- Without the transaction or without the map the write is refused.
  cases hl : e.live.get? t with
  | none =>
    rw [hl] at hx
    exact .inl ⟨_, hx⟩
  | some txn =>
    cases hm : e.maps.get? p.map with
    | none =>
      rw [hl, hm] at hx
      exact .inl ⟨_, hx⟩
    | some m =>
      rw [hl, hm] at hx
      -- The version that would be written is refused, there is none, or it is written.
      rcases hv : Engine.versionToWrite t p.map payload (m.get? p.key) with err | _ | v
      · simp only [hv] at hx
        exact .inl ⟨err, hx⟩
      · simp only [hv] at hx
        refine .inr (.inl ⟨?_, hx⟩)
        -- Only a delete may find nothing to do.
        unfold Engine.versionToWrite at hv
        cases payload with
        | none => rfl
        | some q => split at hv <;> simp at hv
      · simp only [hv] at hx
        exact .inr (.inr ⟨txn, m, v, rfl, rfl, hv, hx⟩)

/-- These are all effects. -/
theorem effect (c : TxnCall) (e : Engine) :
    Effect e c (c.action.runOn e).1 (c.action.runOn e).2 := by
  cases c with
  | begin isolation => exact .begun
  | read t p =>
    rw [action, runOn_map, Engine.runOn_read]
    cases e.live.get? t with
    | none => exact .refused
    | some txn =>
      cases e.maps.get? p.map with
      | none => exact .refused
      | some m => exact .found
  | put t p value =>
    rw [action, runOn_map, Engine.put, runOn_bind]
    -- A put is never passed over, since it has a payload.
    rcases effect_write e t p (some value) with ⟨err, hx⟩ | ⟨hnone, -⟩ | ⟨txn, m, v, hl, hm, hv, hx⟩
    · rw [hx]
      exact .refused
    · cases hnone
    · have hwritten : Effect e (.write t p (some value)) _ _ := .written hl hm hv
      rw [hx]
      exact hwritten
  | delete t p =>
    rw [action, runOn_map, Engine.delete]
    rcases effect_write e t p none with ⟨err, hx⟩ | ⟨-, hx⟩ | ⟨txn, m, v, hl, hm, hv, hx⟩
    · rw [hx]
      exact .refused
    · rw [hx]
      exact .unseen
    · have hwritten : Effect e (.write t p none) _ _ := .written hl hm hv
      rw [hx]
      exact hwritten
  | savepoint t =>
    rw [action, runOn_map, Engine.runOn_savepoint]
    cases e.live.get? t with
    | none => exact .refused
    | some txn => exact .saved
  | rollbackTo t n =>
    rw [action, runOn_map, Engine.runOn_rollbackTo]
    cases hl : e.live.get? t with
    | none => exact .refused
    | some txn =>
      -- A savepoint ahead of the log is refused.
      simp only
      split
      · exact .refused
      · next hn => exact .wentBack hl (Nat.le_of_not_lt hn)
  | commit t =>
    rw [action, runOn_map, Engine.runOn_commit]
    cases hl : e.live.get? t with
    | none => exact .refused
    | some txn =>
      simp only
      -- The outcome of the commit is decided by the logging alone.
      rcases hlog : (Engine.logWrites t txn.log).runOn e with ⟨err | u, e'⟩
      · exact .undone hl hlog
      · exact .committed hl hlog
  | rollback t =>
    rw [action, runOn_map, Engine.runOn_rollback]
    cases hl : e.live.get? t with
    | none => exact .refused
    | some txn => exact .ended hl (.inl rfl)
  | drop t =>
    rw [action, runOn_map, runOn_attempt, Engine.runOn_rollback]
    cases hl : e.live.get? t with
    | none => exact .closed
    | some txn => exact .ended hl (.inr rfl)

end TxnCall

end TxnStore
