import TxnStore.Proofs.Log.Opening
import TxnStore.Proofs.Transactions.RepeatedReads
import TxnStore.Proofs.Transactions.ShownMaps

/-!
# Going back to savepoints

A savepoint is a number of writes. As long as a transaction has never had fewer writes since, going
back to the savepoint undoes exactly what came after it: all that is asked later is answered as if
nothing had come in between. Once the transaction has gone back further and has written again, the
number is not refused, but the writes that it counts are others.
-/

namespace TxnStore

open TxnStore.Action

/-! ## Undoing in parts -/

namespace UndoLog

theorem revertAll_append (rs ss : List UndoRecord) (e : Engine) :
    (revertAll (rs ++ ss) e).2 = (revertAll ss (revertAll rs e).2).2 := by
  induction rs generalizing e with
  | nil => rfl
  | cons r rest ih => exact ih (r.rollback e).2

/-- Going back in two steps undoes what going back in one does. -/
theorem revertAll_drop (log : UndoLog) {k n : Nat} (h : k ≤ n) (e : Engine) :
    (revertAll (log.drop k).reverse e).2 =
      (revertAll ((log.take n).drop k).reverse (revertAll (log.drop n).reverse e).2).2 := by
  have hparts : log.drop k = (log.take n).drop k ++ log.drop n := by
    by_cases hn : n ≤ log.length
    · calc log.drop k = (log.take n ++ log.drop n).drop k := by rw [List.take_append_drop]
        _ = (log.take n).drop k ++ log.drop n := by
          rw [List.drop_append_of_le_length]
          rw [List.length_take]
          omega
    · rw [List.take_of_length_le (by omega), List.drop_of_length_le (i := n) (by omega),
        List.append_nil]
  -- Undoing goes from the newest to the oldest, so that the later part comes first.
  rw [← revertAll_append, ← List.reverse_append, ← hparts]

end UndoLog

/-- A write that was just made is undone. -/
theorem Engine.rollback_afterWrite {e : Engine} {name : String} {m : VersionMap}
    (hm : e.maps.get? name = some m) (t : TxnId) (log : UndoLog) (key : Value) {v : Version}
    (hv : v.isTombstone = false) :
    SameShown ((UndoRecord.ofWrite name key (withoutTombstone (m.get? key)) v).rollback
      (e.afterWrite t log m name key v)).2 e := by
  let r := UndoRecord.ofWrite name key (withoutTombstone (m.get? key)) v
  have hput : (e.afterWrite t log m name key v).maps.get? name = some (m.put key v).2 :=
    Table.get?_insert_self e.maps name (m.put key v).2
  have hback : (r.rollback (e.afterWrite t log m name key v)).2 =
      { e.afterWrite t log m name key v with
        maps := (e.maps.insert name (m.put key v).2).insert name (r.revertIn (m.put key v).2) } := by
    unfold UndoRecord.rollback
    rw [if_neg (by simp [r, UndoRecord.isFinished, UndoRecord.ofWrite])]
    have hput : (e.afterWrite t log m name key v).maps.get? r.map = some (m.put key v).2 := hput
    rw [hput]
    rfl
  rw [hback]
  refine ⟨fun other => ?_, rfl⟩
  show viewOf ((e.maps.insert name _).insert name _) other = viewOf e.maps other
  unfold viewOf
  rw [Table.get?_insert, Table.get?_insert]
  split
  · next hother =>
    rw [hother, hm, Option.map_some, Option.map_some]
    exact congrArg some (VersionMap.view_revertIn_put name key hv)
  · rfl

/-! ## Calls within a transaction -/

namespace TxnCall

/-- A put leaves what the write behind it leaves. -/
theorem runOn_write_snd (t : TxnId) (p : Place) (payload : Option Value) (e : Engine) :
    ((write t p payload).action.runOn e).2 =
      ((Engine.write t p.map p.key payload).runOn e).2 := by
  cases payload with
  | none => rw [write, action, Engine.delete, runOn_map]
  | some value =>
    rw [write, action, runOn_map, Engine.put, runOn_bind]
    rcases (Engine.write t p.map p.key (some value)).runOn e with ⟨err | written, e'⟩ <;> rfl

/-- Whether a call is made by a transaction and neither starts nor ends one. -/
def isWithin (t : TxnId) : TxnCall → Bool
  | read u _ | put u _ _ | delete u _ | savepoint u | rollbackTo u _ => u = t
  | begin _ | commit _ | rollback _ | drop _ => false

/-- Going back leaves no more writes than are asked for. -/
def lower (low : Nat) : TxnCall → Nat
  | rollbackTo _ n => min low n
  | _ => low

/-- The fewest writes that a transaction had in the course of its calls, if it had a given number
before them. -/
def lowest (low : Nat) (calls : List TxnCall) : Nat := calls.foldl lower low

theorem lowest_le (low : Nat) (calls : List TxnCall) : lowest low calls ≤ low := by
  induction calls generalizing low with
  | nil => exact Nat.le_refl low
  | cons c rest ih =>
    refine Nat.le_trans (ih (lower low c)) ?_
    cases c with
    | rollbackTo t n => exact Nat.min_le_left low n
    | _ => exact Nat.le_refl low

/-- A transaction that never goes back further keeps the writes that it has. -/
theorem lowest_eq {low : Nat} {calls : List TxnCall}
    (h : ∀ u n, rollbackTo u n ∈ calls → low ≤ n) : lowest low calls = low := by
  induction calls with
  | nil => rfl
  | cons c rest ih =>
    have hlower : lower low c = low := by
      cases c with
      | rollbackTo u n => exact Nat.min_eq_left (h u n List.mem_cons_self)
      | _ => rfl
    rw [lowest, List.foldl_cons, hlower]
    exact ih fun u n hn => h u n (List.mem_cons_of_mem _ hn)

end TxnCall

/-! ## What undoing leads back to -/

/-- A transaction has gone on from an engine, and it has had at least so many writes all the time.
These are the same, and undoing all others leads to the same on both sides. -/
structure StraysFrom (e₀ : Engine) (t : TxnId) (txn₀ : LiveTransaction) (low : Nat) (log : UndoLog)
    (e : Engine) : Prop where
  plain : e.IsPlain
  live : e.live.get? t = some { txn₀ with log }
  others : ∀ u, u ≠ t → e.live.get? u = e₀.live.get? u
  long : low ≤ log.length
  older : log.take low = txn₀.log.take low
  undone : SameShown (UndoLog.revertAll (log.drop low).reverse e).2
    (UndoLog.revertAll (txn₀.log.drop low).reverse e₀).2

namespace StraysFrom

variable {e₀ e : Engine} {t : TxnId} {txn₀ : LiveTransaction} {low : Nat} {log : UndoLog}

/-- Nothing was done yet. -/
theorem start (h : e₀.IsPlain) (hl : e₀.live.get? t = some txn₀) :
    StraysFrom e₀ t txn₀ txn₀.log.length txn₀.log e₀ :=
  ⟨h, hl, fun _ _ => rfl, Nat.le_refl _, rfl, .refl _⟩

/-- Undoing more writes leads to the same as well. -/
theorem undone_of_le (h : StraysFrom e₀ t txn₀ low log e) {k : Nat} (hk : k ≤ low) :
    SameShown (UndoLog.revertAll (log.drop k).reverse e).2
      (UndoLog.revertAll (txn₀.log.drop k).reverse e₀).2 := by
  rw [UndoLog.revertAll_drop log hk, UndoLog.revertAll_drop txn₀.log hk, h.older]
  exact (UndoLog.revertAll_shown _ h.undone).2

theorem take_of_le (h : StraysFrom e₀ t txn₀ low log e) {k : Nat} (hk : k ≤ low) :
    log.take k = txn₀.log.take k := by
  have holder := congrArg (List.take k) h.older
  rwa [List.take_take, List.take_take, Nat.min_eq_left hk] at holder

/-- The log of the transaction is replaced, and all others are left alone. -/
theorem live_setLog (h : StraysFrom e₀ t txn₀ low log e) (log' : UndoLog) :
    (e.setLog t log').live.get? t = some { txn₀ with log := log' } ∧
      ∀ u, u ≠ t → (e.setLog t log').live.get? u = e₀.live.get? u := by
  refine ⟨?_, fun u hu => ?_⟩
  · rw [Engine.get?_live_setLog, if_pos rfl, h.live]
    rfl
  · rw [Engine.get?_live_setLog, if_neg hu]
    exact h.others u hu

/-- One more write can be undone before all others. -/
theorem written (h : StraysFrom e₀ t txn₀ low log e) {p : Place} {payload : Option Value}
    {m : VersionMap} {v : Version} (hm : e.maps.get? p.map = some m)
    (hv : Engine.versionToWrite t p.map payload (m.get? p.key) = .ok (some v))
    (hplain : (e.afterWrite t log m p.map p.key v).IsPlain) :
    ∃ log', StraysFrom e₀ t txn₀ low log' (e.afterWrite t log m p.map p.key v) := by
  obtain ⟨rfl, -⟩ := Engine.eq_of_versionToWrite hv
  let v : Version := .written t payload ((m.get? p.key).bind Version.lastCommitted)
  let r := UndoRecord.ofWrite p.map p.key (withoutTombstone (m.get? p.key)) v
  obtain ⟨hlive, hothers⟩ := h.live_setLog (log ++ [r])
  refine ⟨log ++ [r],
    { plain := hplain
      live := hlive
      others := hothers
      long := ?_
      older := ?_
      undone := ?_ }⟩
  · rw [List.length_append]
    exact Nat.le_trans h.long (Nat.le_add_right _ _)
  · rw [List.take_append_of_le_length h.long]
    exact h.older
  · -- The write that was just made is undone first, which leads back to where it was made.
    have hback := Engine.rollback_afterWrite hm t log p.key (v := v) rfl
    rw [List.drop_append_of_le_length h.long, List.reverse_append, List.reverse_singleton,
      List.singleton_append, UndoLog.revertAll_cons]
    exact (UndoLog.revertAll_shown _ hback).2.trans h.undone

/-- Going back leaves the newest writes out, and fewer may be kept from now on. -/
theorem wentBack (h : StraysFrom e₀ t txn₀ low log e) {n : Nat} (hn : n ≤ log.length)
    (hplain : (e.afterRollbackTo t log n).IsPlain) :
    StraysFrom e₀ t txn₀ (min low n) (log.take n) (e.afterRollbackTo t log n) := by
  let d := (UndoLog.revertAll (log.drop n).reverse e).2
  obtain ⟨hlive, hothers⟩ := h.live_setLog (log.take n)
  have hafter := e.live_afterRollbackTo t log n
  refine
    { plain := hplain
      live := by rw [hafter]; exact hlive
      others := fun u hu => by rw [hafter]; exact hothers u hu
      long := by rw [List.length_take]; omega
      older := ?_
      undone := ?_ }
  · rw [List.take_take, Nat.min_eq_left (Nat.min_le_right low n)]
    exact h.take_of_le (Nat.min_le_left low n)
  · -- The log that was set does not matter to what is undone.
    have hset : SameShown (e.afterRollbackTo t log n) d := (SameShown.setLive d _).symm
    have hsame := h.undone_of_le (Nat.min_le_left low n)
    rw [UndoLog.revertAll_drop log (Nat.min_le_right low n)] at hsame
    exact (UndoLog.revertAll_shown _ hset).2.trans hsame

/-- Each call within the transaction leads on. -/
theorem call (h : StraysFrom e₀ t txn₀ low log e) {c : TxnCall} (hc : c.isWithin t = true) :
    ∃ log', StraysFrom e₀ t txn₀ (c.lower low) log' (c.action.runOn e).2 := by
  have hplain := h.plain.effect (c.effect e)
  -- A write is refused, or not made, or it is made on the log as it is.
  have hwrite : ∀ p payload, c = .write t p payload →
      ∃ log', StraysFrom e₀ t txn₀ low log' (c.action.runOn e).2 := by
    rintro p payload rfl
    rw [TxnCall.runOn_write_snd] at hplain ⊢
    rcases TxnCall.effect_write e t p payload with
      ⟨err, hx⟩ | ⟨-, hx⟩ | ⟨txn, m, v, hl, hm, hv, hx⟩
    · rw [hx]
      exact ⟨log, h⟩
    · rw [hx]
      exact ⟨log, h⟩
    · obtain rfl : txn = { txn₀ with log } := Option.some.inj (hl.symm.trans h.live)
      rw [hx] at hplain ⊢
      exact h.written hm hv hplain
  cases c with
  | read u p =>
    refine ⟨log, ?_⟩
    rw [TxnCall.action, runOn_map, Engine.runOn_read]
    split <;> exact h
  | put u p value =>
    obtain rfl : u = t := of_decide_eq_true hc
    exact hwrite p (some value) rfl
  | delete u p =>
    obtain rfl : u = t := of_decide_eq_true hc
    exact hwrite p none rfl
  | savepoint u =>
    refine ⟨log, ?_⟩
    rw [TxnCall.action, runOn_map, Engine.runOn_savepoint]
    split <;> exact h
  | rollbackTo u n =>
    obtain rfl : u = t := of_decide_eq_true hc
    rw [TxnCall.action, runOn_map, Engine.runOn_rollbackTo, h.live] at hplain ⊢
    simp only at hplain ⊢
    by_cases hn : log.length < n
    · -- What is refused asks for more writes than there are, hence for no fewer than there were.
      have hlow : min low n = low := Nat.min_eq_left (Nat.le_trans h.long (Nat.le_of_lt hn))
      rw [if_pos hn, TxnCall.lower, hlow]
      exact ⟨log, h⟩
    · rw [if_neg hn] at hplain ⊢
      exact ⟨log.take n, h.wentBack (Nat.le_of_not_lt hn) hplain⟩
  | begin _ | commit _ | rollback _ | drop _ => cases hc

/-- Where each call leads on, all of them do. -/
theorem serve (calls : List TxnCall) (h : StraysFrom e₀ t txn₀ low log e)
    (hwithin : ∀ c ∈ calls, c.isWithin t = true) :
    ∃ log', StraysFrom e₀ t txn₀ (TxnCall.lowest low calls) log' (e.serve calls).2 := by
  -- The bound varies with the engine: a call may lower it for all that come after.
  induction calls generalizing low log e with
  | nil => exact ⟨log, h⟩
  | cons c rest ih =>
    obtain ⟨log', hcall⟩ := h.call (hwithin c List.mem_cons_self)
    exact ih hcall fun d hd => hwithin d (List.mem_cons_of_mem _ hd)

/-- Going back far enough leads to where going back at once would have led. -/
theorem back (h : StraysFrom e₀ t txn₀ low log e) (hl : e₀.live.get? t = some txn₀) {n : Nat}
    (hn : n ≤ low) :
    (e.afterRollbackTo t log n).Alike (e₀.afterRollbackTo t txn₀.log n) := by
  have hback : SameShown (e.afterRollbackTo t log n)
      (UndoLog.revertAll (log.drop n).reverse e).2 := (SameShown.setLive _ _).symm
  refine ⟨hback.trans ((h.undone_of_le hn).trans (SameShown.setLive _ _)), fun u => ?_⟩
  rw [Engine.live_afterRollbackTo, Engine.live_afterRollbackTo]
  obtain ⟨hlive, hothers⟩ := h.live_setLog (log.take n)
  by_cases hu : u = t
  · -- The writes that are kept are older than all that ever changed.
    rw [hu, hlive, Engine.get?_live_setLog, if_pos rfl, hl, h.take_of_le hn]
    rfl
  · rw [hothers u hu, Engine.get?_live_setLog, if_neg hu]

end StraysFrom

/-- Going back to where a transaction stands changes nothing that is shown. -/
theorem Engine.afterRollbackTo_length {e : Engine} {t : TxnId} {txn : LiveTransaction}
    (hl : e.live.get? t = some txn) : (e.afterRollbackTo t txn.log txn.log.length).Alike e := by
  unfold afterRollbackTo
  rw [List.drop_length, List.take_length]
  refine ⟨(SameShown.setLive e _).symm, fun u => ?_⟩
  show (e.setLog t txn.log).live.get? u = e.live.get? u
  rw [get?_live_setLog]
  split
  · next hu =>
    rw [hu, hl]
    rfl
  · rfl

/-! ## Main results -/

/-- The same transactions are under way with the same writes, and whatever is asked, reads among the
rest, is answered alike. -/
def Engine.LooksLike (e e' : Engine) : Prop :=
  (∀ t, e.live.get? t = e'.live.get? t) ∧ ∀ calls, (e.serve calls).1 = (e'.serve calls).1

theorem Engine.Alike.looksLike {e e' : Engine} (h : e.Alike e') (hplain : e.IsPlain)
    (hplain' : e'.IsPlain) : e.LooksLike e' :=
  ⟨h.live, fun calls => (h.serve calls hplain hplain').1⟩

namespace Engine

variable {e : Engine} {t : TxnId} {txn : LiveTransaction}

theorem IsReachable.serve (h : e.IsReachable) (calls : List TxnCall) :
    (e.serve calls).2.IsReachable := by
  induction calls generalizing e with
  | nil => exact h
  | cons c rest ih => exact ih (h.after (.call c))

/-- A savepoint is the number of writes that are made. -/
theorem runOn_savepoint_eq_ok {n : Nat} :
    (savepoint t).runOn e = (.ok n, e) ↔ ∃ txn, e.live.get? t = some txn ∧ txn.log.length = n := by
  rw [runOn_savepoint]
  cases e.live.get? t with
  | none => simp
  | some txn => simp

/-- Going back to a position that the log has. -/
theorem runOn_rollbackTo_of_le (hl : e.live.get? t = some txn) {n : Nat} (hn : n ≤ txn.log.length) :
    (rollbackTo t n).runOn e = (.ok (), e.afterRollbackTo t txn.log n) := by
  rw [runOn_rollbackTo, hl]
  simp only
  rw [if_neg (Nat.not_lt.mpr hn)]

theorem IsPlain.afterRollbackTo (h : e.IsPlain) (hl : e.live.get? t = some txn) {n : Nat}
    (hn : n ≤ txn.log.length) : (e.afterRollbackTo t txn.log n).IsPlain :=
  h.effect (.wentBack hl hn)

/-- Let a transaction make any calls after a savepoint. A number of writes that it does not have is
refused, and nothing changes; every other number is accepted, and as many of its writes are kept.
Going back to where it never went back further is the same as going back there at once; so, as long
as the transaction never went back beyond the savepoint, going back to it restores all that was
there. -/
theorem rollbackTo_restores (h : e.IsReachable) (hl : e.live.get? t = some txn)
    (calls : List TxnCall) (hwithin : ∀ c ∈ calls, c.isWithin t = true) {e₁ : Engine}
    (hrun : (e.serve calls).2 = e₁) :
    ∃ log, e₁.live.get? t = some { txn with log } ∧
      TxnCall.lowest txn.log.length calls ≤ log.length ∧
      (∀ n, log.length < n →
        (rollbackTo t n).runOn e₁ = (.error (.invalid .savepointAhead), e₁)) ∧
      (∀ n, n ≤ log.length → ∃ e₂, (rollbackTo t n).runOn e₁ = (.ok (), e₂) ∧
        e₂.live.get? t = some { txn with log := log.take n }) ∧
      (∀ n, n ≤ TxnCall.lowest txn.log.length calls → ∃ e₂ e₂',
        (rollbackTo t n).runOn e₁ = (.ok (), e₂) ∧ (rollbackTo t n).runOn e = (.ok (), e₂') ∧
          e₂.LooksLike e₂') ∧
      (TxnCall.lowest txn.log.length calls = txn.log.length → ∃ e₂,
        (rollbackTo t txn.log.length).runOn e₁ = (.ok (), e₂) ∧ e₂.LooksLike e) := by
  obtain ⟨log, hstrays⟩ := (StraysFrom.start h.isPlain hl).serve calls hwithin
  rw [hrun] at hstrays
  have hlow := TxnCall.lowest_le txn.log.length calls
  refine ⟨log, hstrays.live, hstrays.long, fun n hn => ?_, fun n hn => ?_, fun n hn => ?_,
    fun hkept => ?_⟩
  · rw [runOn_rollbackTo, hstrays.live]
    exact if_pos hn
  · refine ⟨_, runOn_rollbackTo_of_le hstrays.live hn, ?_⟩
    rw [live_afterRollbackTo]
    exact (hstrays.live_setLog (log.take n)).1
  · -- The transaction had the writes that are kept at all times.
    have hn₁ : n ≤ log.length := Nat.le_trans hn hstrays.long
    have hn₀ : n ≤ txn.log.length := Nat.le_trans hn hlow
    exact ⟨_, _, runOn_rollbackTo_of_le hstrays.live hn₁, runOn_rollbackTo_of_le hl hn₀,
      (hstrays.back hl hn).looksLike (hstrays.plain.afterRollbackTo hstrays.live hn₁)
        (h.isPlain.afterRollbackTo hl hn₀)⟩
  · -- Going back to the savepoint at once would not have changed anything.
    have hlong : txn.log.length ≤ log.length := hkept ▸ hstrays.long
    have hback := (hstrays.back hl (Nat.le_of_eq hkept.symm)).trans (afterRollbackTo_length hl)
    exact ⟨_, runOn_rollbackTo_of_le hstrays.live hlong,
      hback.looksLike (hstrays.plain.afterRollbackTo hstrays.live hlong) h.isPlain⟩

/-- An engine with a new log and nothing else. -/
def logging : Engine := bare .basic .inMemory (some (RedoLog.fresh (.basic 7 .always))) none

theorem isReachable_logging : logging.IsReachable :=
  have hopen : openWith .basic .inMemory (some (RedoLog.fresh (.basic 7 .always))) none =
    .ok logging := rfl
  .opened hopen

/-- Two rows are committed. The delete of the second one leaves a tombstone, since a transaction
that must be able to read again is under way. A last transaction has written over the first row and
has put a third one. -/
def buriedRow : Engine :=
  ((logging.after (.createMap "m" .int64 .text)).serve
    [.begin (some .repeatableRead), .begin none, .put ⟨2⟩ ⟨"m", .int 1⟩ (.text "a"),
      .put ⟨2⟩ ⟨"m", .int 2⟩ (.text "b"), .commit ⟨2⟩, .begin none, .delete ⟨3⟩ ⟨"m", .int 2⟩,
      .commit ⟨3⟩, .begin none, .put ⟨4⟩ ⟨"m", .int 1⟩ (.text "x"),
      .put ⟨4⟩ ⟨"m", .int 3⟩ (.text "y")]).2

theorem isReachable_buriedRow : buriedRow.IsReachable :=
  (isReachable_logging.after _).serve _

/-- A row is deleted, another one is put over a tombstone, and a nested savepoint is used on the
way. Then the transaction goes back. -/
theorem rollbackTo_restores_of_nested_savepoint :
    let calls : List TxnCall :=
      [.delete ⟨4⟩ ⟨"m", .int 1⟩, .put ⟨4⟩ ⟨"m", .int 2⟩ (.text "z"), .savepoint ⟨4⟩,
        .put ⟨4⟩ ⟨"m", .int 1⟩ (.text "w"), .rollbackTo ⟨4⟩ 4, .delete ⟨4⟩ ⟨"m", .int 3⟩]
    ∃ txn, buriedRow.live.get? ⟨4⟩ = some txn ∧ txn.log.length = 2 ∧
      TxnCall.lowest 2 calls = 2 ∧ ∃ e₂,
        (rollbackTo ⟨4⟩ 2).runOn (buriedRow.serve calls).2 = (.ok (), e₂) ∧
          e₂.LooksLike buriedRow := by
  intro calls
  obtain ⟨txn, hl, hlength⟩ :
      ∃ txn, buriedRow.live.get? ⟨4⟩ = some txn ∧ txn.log.length = 2 := by
    rw [← Option.map_eq_some_iff]
    decide +kernel
  have hlowest : TxnCall.lowest txn.log.length calls = txn.log.length := by
    rw [hlength]
    rfl
  obtain ⟨-, -, -, -, -, -, hback⟩ :=
    rollbackTo_restores isReachable_buriedRow hl calls (by decide) rfl
  obtain ⟨e₂, hrun, hlooks⟩ := hback hlowest
  exact ⟨txn, hl, hlength, hlength ▸ hlowest, e₂, hlength ▸ hrun, hlooks⟩

/-- A transaction puts two rows and takes a savepoint. It goes back beyond the savepoint and puts a
third row. Going back to the savepoint is accepted then, but the second row, which was there at the
savepoint, stays gone, and the third one, which was not, stays. -/
theorem rollbackTo_keeps_later_write :
    let row (n : Int64) : Place := ⟨"m", .int n⟩
    let e := ((logging.after (.createMap "m" .int64 .text)).serve
      [.begin none, .put ⟨1⟩ (row 1) (.text "a"), .put ⟨1⟩ (row 2) (.text "b")]).2
    let e₁ := (e.serve [.rollbackTo ⟨1⟩ 1, .put ⟨1⟩ (row 3) (.text "c")]).2
    let e₂ := ((rollbackTo ⟨1⟩ 2).runOn e₁).2
    let told (e : Engine) (c : TxnCall) := (c.action.runOn e).1.toOption
    e.IsReachable ∧ told e (.savepoint ⟨1⟩) = some (.saved 2) ∧
      told e₁ (.rollbackTo ⟨1⟩ 2) = some .done ∧
      told e (.read ⟨1⟩ (row 2)) = some (.found (some (.text "b"))) ∧
      told e₂ (.read ⟨1⟩ (row 2)) = some (.found none) ∧
      told e (.read ⟨1⟩ (row 3)) = some (.found none) ∧
      told e₂ (.read ⟨1⟩ (row 3)) = some (.found (some (.text "c"))) := by
  intro row e e₁ e₂ told
  refine ⟨(isReachable_logging.after _).serve _, ?_⟩
  decide +kernel

/-! ### Detours -/

theorem length_answers (e : Engine) (calls : List TxnCall) :
    (e.serve calls).1.length = calls.length := by
  induction calls generalizing e with
  | nil => rfl
  | cons c rest ih => exact congrArg (· + 1) (ih (c.action.runOn e).2)

/-- A transaction takes a savepoint, goes on without going back beyond it, and goes back to it at
last. All that it and others ask before and after is answered as if this detour had not been made:
its further writes, its commit, and whatever is read later. The log then has the same in it, and all
maps are of the same size. -/
theorem detour_leaves_no_trace (h : e.IsReachable) (before astray after : List TxnCall) {sp : Nat}
    (hsaved : (savepoint t).runOn (e.serve before).2 = (.ok sp, (e.serve before).2))
    (hwithin : ∀ c ∈ astray, c.isWithin t = true)
    (hnested : ∀ n, .rollbackTo t n ∈ astray → sp ≤ n) :
    let straight := e.serve (before ++ after)
    let detour := e.serve (before ++ .savepoint t :: (astray ++ .rollbackTo t sp :: after))
    ∃ first strayed rest, first.length = before.length ∧ strayed.length = astray.length ∧
      straight.1 = first ++ rest ∧
      detour.1 = first ++ .ok (.saved sp) :: (strayed ++ .ok .done :: rest) ∧
      detour.2.log = straight.2.log ∧
      ∀ name, (detour.2.maps.get? name).map VersionMap.size =
        (straight.2.maps.get? name).map VersionMap.size := by
  intro straight detour
  generalize he₁ : (e.serve before).2 = e₁ at hsaved
  have h₁ : e₁.IsReachable := he₁ ▸ h.serve before
  obtain ⟨txn, hl, rfl⟩ := runOn_savepoint_eq_ok.mp hsaved
  -- The detour never goes back beyond the savepoint, and so it ends where it began, but for
  -- tombstones.
  have hlowest : TxnCall.lowest txn.log.length astray = txn.log.length := by
    apply TxnCall.lowest_eq
    intro u n hn
    obtain rfl : u = t := of_decide_eq_true (hwithin _ hn)
    exact hnested n hn
  obtain ⟨log, hstrays⟩ := (StraysFrom.start h₁.isPlain hl).serve astray hwithin
  rw [hlowest] at hstrays
  generalize he₂ : (e₁.serve astray).2 = e₂ at hstrays
  let e₃ := e₂.afterRollbackTo t log txn.log.length
  have hback : (TxnCall.rollbackTo t txn.log.length).action.runOn e₂ = (.ok .done, e₃) := by
    rw [TxnCall.action, runOn_map, runOn_rollbackTo_of_le hstrays.live hstrays.long]
    rfl
  have halike : e₃.Alike e₁ :=
    (hstrays.back hl (Nat.le_refl _)).trans (afterRollbackTo_length hl)
  have hplain : e₃.IsPlain := hstrays.plain.afterRollbackTo hstrays.live hstrays.long
  obtain ⟨hanswers, hend⟩ := halike.serve after hplain h₁.isPlain
  have hsavepoint : (TxnCall.savepoint t).action.runOn e₁ = (.ok (.saved txn.log.length), e₁) := by
    rw [TxnCall.action, runOn_map, hsaved]
    rfl
  have hstraight : straight = ((e.serve before).1 ++ (e₁.serve after).1, (e₁.serve after).2) := by
    show e.serve (before ++ after) = _
    rw [serve_append, he₁]
  have hdetour : detour = ((e.serve before).1 ++ .ok (.saved txn.log.length) ::
      ((e₁.serve astray).1 ++ .ok .done :: (e₃.serve after).1), (e₃.serve after).2) := by
    show e.serve (before ++ .savepoint t :: (astray ++ .rollbackTo t txn.log.length :: after)) = _
    rw [serve_append, he₁, Engine.serve, hsavepoint]
    simp only
    rw [serve_append, he₂, Engine.serve, hback]
  -- From there on both runs are served by engines that look alike.
  refine ⟨(e.serve before).1, (e₁.serve astray).1, (e₁.serve after).1, length_answers e before,
    length_answers e₁ astray, by rw [hstraight], by rw [hdetour, hanswers], ?_, fun name => ?_⟩
  · rw [hdetour, hstraight]
    exact hend.shown.log
  · rw [hdetour, hstraight]
    exact hend.size_eq name

/-- The transaction of the last example writes over a row, a tombstone and a write of its own on its
detour, with another savepoint on the way. Its commit adds the third frame to the log, the same
one as without the detour. -/
theorem detour_leaves_no_trace_of_nested_savepoint :
    let row (n : Int64) : Place := ⟨"m", .int n⟩
    let before : List TxnCall := [.delete ⟨4⟩ (row 1)]
    let astray : List TxnCall :=
      [.put ⟨4⟩ (row 1) (.text "v"), .put ⟨4⟩ (row 2) (.text "w"), .savepoint ⟨4⟩,
        .delete ⟨4⟩ (row 2), .rollbackTo ⟨4⟩ 5, .delete ⟨4⟩ (row 3)]
    let after : List TxnCall :=
      [.put ⟨4⟩ (row 4) (.text "z"), .commit ⟨4⟩, .begin none, .read ⟨5⟩ (row 1),
        .read ⟨5⟩ (row 2), .read ⟨5⟩ (row 3), .read ⟨5⟩ (row 4)]
    let straight := buriedRow.serve (before ++ after)
    let detour :=
      buriedRow.serve (before ++ .savepoint ⟨4⟩ :: (astray ++ .rollbackTo ⟨4⟩ 3 :: after))
    straight.1.map Except.toOption = [some (.deleted true), some .done, some .done,
        some (.begun ⟨5⟩), some (.found none), some (.found none), some (.found (some (.text "y"))),
        some (.found (some (.text "z")))] ∧
      detour.1.drop 9 = straight.1.drop 1 ∧
      detour.2.log = straight.2.log ∧
      straight.2.log.map RedoLog.nextLsn = some ⟨4⟩ ∧
      (detour.2.maps.get? "m").map VersionMap.size = some 2 := by
  intro row before astray after straight detour
  have hsaved : (savepoint ⟨4⟩).runOn (buriedRow.serve before).2 =
      (.ok 3, (buriedRow.serve before).2) := by
    rw [runOn_savepoint_eq_ok, ← Option.map_eq_some_iff]
    decide +kernel
  have hnested : ∀ n, TxnCall.rollbackTo ⟨4⟩ n ∈ astray → 3 ≤ n := by
    intro n hn
    obtain rfl : n = 5 := by simpa [astray] using hn
    decide
  obtain ⟨first, strayed, rest, hfirst, hstrayed, hstraight, hdetour, hlog, hsize⟩ :=
    detour_leaves_no_trace isReachable_buriedRow before astray after hsaved (by decide) hnested
  let own : List (Except StoreError TxnAnswer) :=
    first ++ .ok (.saved 3) :: (strayed ++ [.ok .done])
  have hparted : detour.1 = own ++ rest := by
    rw [hdetour, List.append_assoc, List.cons_append, List.append_assoc, List.singleton_append]
  refine ⟨by decide +kernel, ?_, ?_, by decide +kernel, ?_⟩
  · have hlong : own.length = 9 := by
      rw [List.length_append, List.length_cons, List.length_append, hfirst, hstrayed]
      rfl
    have hshort : first.length = 1 := hfirst
    rw [hparted, hstraight, List.drop_left' hlong, List.drop_left' hshort]
  · rw [hlog]
  · rw [hsize]
    decide +kernel

end Engine

end TxnStore
