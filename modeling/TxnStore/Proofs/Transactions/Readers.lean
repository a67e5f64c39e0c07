import TxnStore.Proofs.Transactions.MapSizes

/-!
# Readers under way

The engine counts the transactions that must read the same value each time: one more when such a
transaction begins, one less when it is over. Which transactions are unfinished, and at which
isolation they were begun, is told by the calls and their answers; the count of the engine is that
of the readers among them, on whatever path the others have ended.
-/

namespace TxnStore

open TxnStore.Action

/-! ## Unfinished transactions -/

/-- The transactions that were begun and are not over, each with its isolation. -/
abbrev Unfinished := List (TxnId × Isolation)

def TxnCall.ended? : TxnCall → Option TxnId
  | commit t | rollback t | drop t => some t
  | _ => none

namespace Unfinished

/-- The transactions without one of them. -/
def without (u : Unfinished) (t : TxnId) : Unfinished := u.filter fun x => x.1 ≠ t

/-- The transactions after a call and its answer. One that begins without an isolation of its own
has the usual one, and one that is committed, rolled back or dropped is over, also if the commit
fails. -/
def note (u : Unfinished) (usual : Isolation) :
    TxnCall → Except StoreError TxnAnswer → Unfinished
  | .begin isolation, .ok (.begun t) => (t, isolation.getD usual) :: u
  | .commit t, _ => u.without t
  | .rollback t, _ => u.without t
  | .drop t, _ => u.without t
  | _, _ => u

/-- The transactions after a request. -/
def step (u : Unfinished) (e : Engine) : EngineRequest → Unfinished
  | .call c => u.note e.settings.defaultIsolation c (c.action.runOn e).1
  | _ => u

/-- How many of the transactions must read the same value each time. -/
def readers (u : Unfinished) : Nat := u.countP fun x => x.2.needsRepeatableRead

/-- Whether there is any such transaction. -/
def hasReader (u : Unfinished) : Bool := u.any fun x => x.2.needsRepeatableRead

variable {u : Unfinished} {t : TxnId} {isolation : Isolation}

theorem hasReader_eq (u : Unfinished) : u.hasReader = decide (0 < u.readers) := by
  rw [Bool.eq_iff_iff, hasReader, readers, decide_eq_true_iff, List.countP_pos_iff,
    List.any_eq_true]

theorem without_of_not_mem (h : t ∉ u.map Prod.fst) : u.without t = u := by
  apply List.filter_eq_self.mpr
  intro x hx
  exact decide_eq_true fun hxt => h (hxt ▸ List.mem_map_of_mem hx)

/-- A transaction that is taken away is counted out once. -/
theorem readers_without (hnodup : (u.map Prod.fst).Nodup) (hmem : (t, isolation) ∈ u) :
    u.readers = (u.without t).readers + if isolation.needsRepeatableRead then 1 else 0 := by
  induction u with
  | nil => cases hmem
  | cons x rest ih =>
    obtain ⟨hnew, hrest⟩ := List.nodup_cons.mp hnodup
    by_cases hx : x.1 = t
    · -- This is the transaction, and no other one of the list has its number.
      have hsame : x = (t, isolation) := by
        rcases List.mem_cons.mp hmem with hfirst | hlater
        · exact hfirst.symm
        · exact absurd (List.mem_map_of_mem hlater) (hx ▸ hnew)
      subst hsame
      have hothers : without ((t, isolation) :: rest) t = rest :=
        (List.filter_cons_of_neg (by simp)).trans (without_of_not_mem hnew)
      rw [hothers, readers, List.countP_cons]
      rfl
    · -- Another transaction comes first, and is counted on both sides or on neither.
      have hlater : (t, isolation) ∈ rest := by
        rcases List.mem_cons.mp hmem with hfirst | hlater
        · exact absurd (congrArg Prod.fst hfirst).symm hx
        · exact hlater
      have hkept : without (x :: rest) t = x :: without rest t :=
        List.filter_cons_of_pos (by simp [hx])
      have hcount := ih hrest hlater
      rw [readers] at hcount
      rw [hkept, readers, readers, List.countP_cons, List.countP_cons, hcount, readers]
      omega

/-! ## The count of the engine -/

/-- The transactions are those under way in an engine, and the engine counts the readers among
them. -/
structure Lists (u : Unfinished) (e : Engine) : Prop where
  nodup : (u.map Prod.fst).Nodup
  mem_iff : ∀ t isolation,
    (t, isolation) ∈ u ↔ (e.live.get? t).map LiveTransaction.isolation = some isolation
  readers : e.repeatableReaders = u.readers

end Unfinished

namespace Engine

variable {e : Engine} {t : TxnId}

theorem repeatableReaders_aborted (e : Engine) (t : TxnId) (log : UndoLog) :
    (e.aborted t log).repeatableReaders = (e.finish t).repeatableReaders := by
  obtain ⟨maps, metrics, hsame⟩ := e.aborted_eq t log
  rw [hsame]

theorem repeatableReaders_committed (e : Engine) (t : TxnId) (log : UndoLog) :
    (e.committed t log).repeatableReaders = (e.finish t).repeatableReaders := by
  obtain ⟨maps, metrics, hsame⟩ := e.committed_eq t log
  rw [hsame]

/-- Logging writes leaves the transactions and the count of readers alone. -/
theorem finish_logWrites (t : TxnId) (log : UndoLog) (e : Engine) :
    let e' := ((logWrites t log).runOn e).2
    e'.live = e.live ∧ e'.repeatableReaders = e.repeatableReaders ∧
      (e'.finish t).repeatableReaders = (e.finish t).repeatableReaders := by
  intro e'
  obtain ⟨log', dirty, metrics, hsame⟩ := logWrites_eq t log e
  rw [show e' = _ from hsame]
  refine ⟨rfl, rfl, ?_⟩
  unfold finish
  cases e.live.get? t <;> rfl

/-- A call that is to end a transaction ends it, whatever is answered. -/
theorem ends_call {c : TxnCall} (hc : c.ended? = some t) :
    (e.after (.call c)).live = e.live.erase t ∧
      (e.after (.call c)).repeatableReaders = (e.finish t).repeatableReaders := by
  cases hl : e.live.get? t with
  | none =>
    -- Nothing is there to be ended.
    have hsame : e.after (.call c) = e := by
      -- Whichever call it is, it is refused.
      cases c with
      | commit u =>
        obtain rfl := Option.some.inj hc
        rw [after, TxnCall.action, runOn_map, runOn_commit, hl]
      | rollback u =>
        obtain rfl := Option.some.inj hc
        rw [after, TxnCall.action, runOn_map, runOn_rollback, hl]
      | drop u =>
        obtain rfl := Option.some.inj hc
        rw [after, TxnCall.action, runOn_map, runOn_attempt, runOn_rollback, hl]
      | _ => cases hc
    have hclosed : e.live.contains t = false := by rw [Table.contains, hl]; rfl
    rw [hsame, Table.erase_of_not_contains hclosed, finish, hl]
    exact ⟨rfl, rfl⟩
  | some txn =>
    -- A rollback and a drop undo the transaction.
    have haborted : (e.aborted t txn.log).live = e.live.erase t ∧
        (e.aborted t txn.log).repeatableReaders = (e.finish t).repeatableReaders :=
      ⟨e.live_aborted t txn.log, e.repeatableReaders_aborted t txn.log⟩
    cases c with
    | commit u =>
      obtain rfl := Option.some.inj hc
      rw [after, TxnCall.action, runOn_map, runOn_commit, hl]
      obtain ⟨hlive, -, hreaders⟩ := finish_logWrites u txn.log e
      simp only
      rw [← hlive, ← hreaders]
      rcases (logWrites u txn.log).runOn e with ⟨err | _, e₁⟩
      · exact ⟨e₁.live_aborted u txn.log, e₁.repeatableReaders_aborted u txn.log⟩
      · exact ⟨e₁.live_committed u txn.log, e₁.repeatableReaders_committed u txn.log⟩
    | rollback u =>
      obtain rfl := Option.some.inj hc
      rw [after, TxnCall.action, runOn_map, runOn_rollback, hl]
      exact haborted
    | drop u =>
      obtain rfl := Option.some.inj hc
      rw [after, TxnCall.action, runOn_map, runOn_attempt, runOn_rollback, hl]
      exact haborted
    | _ => cases hc

end Engine

namespace Unfinished.Lists

variable {u : Unfinished} {e e' : Engine} {t : TxnId}

/-- What changes no isolation and not the count leaves the list as it is. -/
theorem of_same (h : u.Lists e)
    (hlive : ∀ s, (e'.live.get? s).map LiveTransaction.isolation =
      (e.live.get? s).map LiveTransaction.isolation)
    (hreaders : e'.repeatableReaders = e.repeatableReaders) : u.Lists e' where
  nodup := h.nodup
  mem_iff s isolation := by rw [hlive, h.mem_iff]
  readers := hreaders.trans h.readers

theorem of_live (h : u.Lists e) (hlive : e'.live = e.live)
    (hreaders : e'.repeatableReaders = e.repeatableReaders) : u.Lists e' :=
  h.of_same (fun s => by rw [hlive]) hreaders

/-- Another log changes no isolation. -/
theorem setLog (h : u.Lists e) {log : UndoLog} (hlive : e'.live = (e.setLog t log).live)
    (hreaders : e'.repeatableReaders = e.repeatableReaders) : u.Lists e' := by
  refine h.of_same (fun s => ?_) hreaders
  rw [hlive, Engine.get?_live_setLog]
  split
  · cases e.live.get? s <;> rfl
  · rfl

theorem not_mem (h : u.Lists e) (hfree : e.live.get? t = none) : t ∉ u.map Prod.fst := by
  intro hmem
  obtain ⟨⟨s, isolation⟩, hx, rfl⟩ := List.mem_map.mp hmem
  have hlive := (h.mem_iff s isolation).mp hx
  rw [hfree] at hlive
  cases hlive

theorem isSome_iff (h : u.Lists e) (t : TxnId) :
    (e.live.get? t).isSome = true ↔ t ∈ u.map Prod.fst := by
  constructor
  · intro hlive
    obtain ⟨txn, hl⟩ := Option.isSome_iff_exists.mp hlive
    have hmem : (t, txn.isolation) ∈ u := (h.mem_iff t txn.isolation).mpr (by rw [hl]; rfl)
    exact List.mem_map_of_mem hmem
  · intro hmem
    cases hl : e.live.get? t with
    | none => exact absurd hmem (h.not_mem hl)
    | some txn => rfl

/-- A transaction that begins is counted in. -/
theorem begun (h : u.Lists e) (hfree : e.live.get? e.nextTxn = none) (isolation : Isolation) :
    Lists ((e.nextTxn, isolation) :: u) ((Engine.beginWith isolation).runOn e).2 where
  nodup := List.nodup_cons.mpr ⟨h.not_mem hfree, h.nodup⟩
  mem_iff s i := by
    rw [Engine.runOn_beginWith]
    simp only [Table.get?_insert, List.mem_cons, Prod.mk.injEq]
    by_cases hs : s = e.nextTxn
    · have hnot : (s, i) ∉ u := fun hmem =>
        h.not_mem hfree (hs ▸ List.mem_map_of_mem hmem)
      simp [hs, eq_comm, hs ▸ hnot]
    · simp [hs, h.mem_iff]
  readers := by
    rw [Engine.runOn_beginWith, Unfinished.readers, List.countP_cons]
    simp only
    have hcount : u.countP (fun x => x.2.needsRepeatableRead) = e.repeatableReaders :=
      h.readers.symm
    rw [hcount]
    split <;> rfl

/-- A transaction that ends is counted out. -/
theorem ended (h : u.Lists e) (hlive : e'.live = e.live.erase t)
    (hreaders : e'.repeatableReaders = (e.finish t).repeatableReaders) :
    (u.without t).Lists e' where
  nodup := h.nodup.sublist (List.filter_sublist.map Prod.fst)
  mem_iff s isolation := by
    rw [hlive, Table.get?_erase, without, List.mem_filter, h.mem_iff]
    by_cases hs : s = t <;> simp [hs]
  readers := by
    rw [hreaders, Engine.finish]
    cases hl : e.live.get? t with
    | none => rw [without_of_not_mem (h.not_mem hl), ← h.readers]
    | some txn =>
      have hmem : (t, txn.isolation) ∈ u := (h.mem_iff t txn.isolation).mpr (by rw [hl]; rfl)
      have hcount := readers_without h.nodup hmem
      rw [← h.readers] at hcount
      simp only [hcount]
      split <;> rfl

/-- A call that ends no transaction changes no isolation, unless a transaction begins. -/
theorem effect {c : TxnCall} {a : Except StoreError TxnAnswer} (h : u.Lists e)
    (hx : Effect e c a e') (hc : c.ended? = none)
    (hfree : c.isBegin = true → e.live.get? e.nextTxn = none) :
    (u.note e.settings.defaultIsolation c a).Lists e' := by
  cases hx with
  | refused => cases c <;> first | exact h | cases hc
  | found | saved | unseen => exact h
  | begun => exact h.begun (hfree rfl) _
  | @written t txn p payload m v _ _ _ => cases payload <;> exact h.setLog rfl rfl
  | @wentBack t txn n _ _ =>
    have hframe := UndoLog.revertAll_eq (txn.log.drop n).reverse e
    refine h.setLog (e.live_afterRollbackTo t txn.log n) ?_
    rw [Engine.afterRollbackTo, hframe]
    rfl
  | closed | undone | committed => cases hc
  | ended _ hends => rcases hends with rfl | rfl <;> cases hc

/-- A request keeps the list, if a transaction that begins gets a number that none under way has. -/
theorem after (h : u.Lists e) {q : EngineRequest} (hq : e.reusesNothing q = true) :
    (u.step e q).Lists (e.after q) := by
  cases q with
  | call c =>
    have hfree : c.isBegin = true → e.live.get? e.nextTxn = none := by
      intro hbegin
      have hnumber := (Bool.and_eq_true_iff.mp hq).2
      simpa [EngineRequest.event, EngineEvent.isBegin, hbegin, Table.contains] using hnumber
    cases hc : c.ended? with
    | none => exact h.effect (c.effect e) hc hfree
    | some t =>
      have hover := h.ended (Engine.ends_call hc).1 (Engine.ends_call hc).2
      -- Such a call is noted alike whatever it answers.
      cases c with
      | commit s =>
        obtain rfl := Option.some.inj hc
        exact hover
      | rollback s =>
        obtain rfl := Option.some.inj hc
        exact hover
      | drop s =>
        obtain rfl := Option.some.inj hc
        exact hover
      | _ => cases hc
  | createMap name keyCodec valueCodec =>
    obtain ⟨catalog, maps, nextMapId, hsame⟩ := e.createMap_eq name keyCodec valueCodec
    rw [Engine.after, hsame]
    exact h.of_live rfl rfl
  | dropMap name =>
    obtain ⟨catalog, maps, dirty, hsame⟩ := e.dropMap_eq name
    rw [Engine.after, hsame]
    exact h.of_live rfl rfl

end Unfinished.Lists

/-! ## Engines in use -/

namespace Engine

variable {e : Engine}

theorem transactions_recover (e : Engine) :
    (recover.runOn e).2.live = e.live ∧
      (recover.runOn e).2.repeatableReaders = e.repeatableReaders := by
  obtain ⟨maps, hsame⟩ := e.recover_eq
  rw [hsame]
  exact ⟨rfl, rfl⟩

/-- The readers are counted in all engines that are used well. -/
theorem IsWellUsed.exists_lists (h : e.IsWellUsed) : ∃ u : Unfinished, u.Lists e := by
  induction h with
  | @opened settings catalog log metrics e hopen =>
    have hidle : e.live = Table.empty ∧ e.repeatableReaders = 0 := by
      refine openWith_keeps (P := fun e => e.live = Table.empty ∧ e.repeatableReaders = 0)
        ⟨rfl, rfl⟩ ?_ hopen
      exact fun _ _ _ _ _ h => h
    refine ⟨[], List.nodup_nil, fun t isolation => ?_, hidle.2⟩
    rw [hidle.1]
    simp
  | after _ hq ih =>
    obtain ⟨u, hu⟩ := ih
    exact ⟨_, hu.after hq⟩
  | @recovered e _ _ ih =>
    obtain ⟨u, hu⟩ := ih
    exact ⟨u, hu.of_live e.transactions_recover.1 e.transactions_recover.2⟩
  | elsewhere _ log catalog dirty metrics ih =>
    obtain ⟨u, hu⟩ := ih
    exact ⟨u, hu.of_live rfl rfl⟩

/-- While no transaction is under way, none is counted. -/
theorem IsWellUsed.lists_nil (h : e.IsWellUsed) (hidle : e.activeTransactions = 0) :
    Unfinished.Lists [] e := by
  obtain ⟨u, hu⟩ := h.exists_lists
  have hnone : u = [] := by
    apply List.eq_nil_iff_forall_not_mem.mpr
    rintro ⟨t, isolation⟩ hmem
    exact hu.not_mem (live_of_idle hidle t) (List.mem_map_of_mem hmem)
  exact hnone ▸ hu

end Engine

end TxnStore
