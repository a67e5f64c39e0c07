import TxnStore.Proofs.Recovery.Histories
import TxnStore.Proofs.Transactions.Isolation

/-!
# Reading a place again

A slot keeps one committed payload, and a transaction takes no copy of it. So a transaction that
reads a place again does not see what was committed when it began or when it read first, whatever
its isolation: it sees what the commits of other transactions have made final there in the meantime.
Only a place that the transaction itself has written is safe from them, since nobody else can write
to it.
-/

namespace TxnStore

open TxnStore.Action

/-! ## What commits make final -/

/-- The payload that the newest of the writes to a place gave it. -/
def UndoLog.newestAt? (log : UndoLog) (p : Place) : Option (Option Value) :=
  (log.reverse.find? fun r => r.place = p).map fun r => r.written.payload

namespace Engine

/-- The payload that a call makes final at a place: that of the newest write there, if the call is a
commit that can be logged. -/
def finalAt? (e : Engine) (p : Place) : TxnCall → Option (Option Value)
  | .commit t =>
    match e.verdict (.commit t) with
    | some _ => none
    | none => (e.live.get? t).bind fun txn => UndoLog.newestAt? txn.log p
  | _ => none

/-- The payload that calls one after the other make final at a place: the last one has the last
word. -/
def lastFinalAt? (e : Engine) (p : Place) : List TxnCall → Option (Option Value)
  | [] => none
  | c :: rest => (lastFinalAt? (c.action.runOn e).2 p rest).or (e.finalAt? p c)

/-- Whether a call leaves alone what a transaction has written to a place: it neither writes there
for the transaction, nor undoes a write there, nor ends the transaction. -/
def spares (e : Engine) (t : TxnId) (p : Place) : TxnCall → Bool
  | .put u q _ => u ≠ t || q ≠ p
  | .delete u q => u ≠ t || q ≠ p
  | .rollbackTo u n =>
    u ≠ t || (e.live.get? u).all fun txn => (txn.log.drop n).all fun r => r.place ≠ p
  | .commit u | .rollback u | .drop u => u ≠ t
  | .begin _ | .read _ _ | .savepoint _ => true

/-- Whether this is so for calls one after the other. -/
def sparesAll (e : Engine) (t : TxnId) (p : Place) : List TxnCall → Bool
  | [] => true
  | c :: rest => e.spares t p c && sparesAll (c.action.runOn e).2 t p rest

theorem serve_append (e : Engine) (before after : List TxnCall) :
    e.serve (before ++ after) = ((e.serve before).1 ++ ((e.serve before).2.serve after).1,
      ((e.serve before).2.serve after).2) := by
  induction before generalizing e with
  | nil => rfl
  | cons c rest ih =>
    exact congrArg (fun q => ((c.action.runOn e).1 :: q.1, q.2)) (ih (c.action.runOn e).2)

end Engine

namespace Overlay

variable {t : TxnId} {committed : Place → Option Value} {p : Place}

/-- The newest write to a place decides, in the records of an overlay as in the overlay. -/
theorem newestAt?_records (o : Overlay) :
    UndoLog.newestAt? (records t committed o).reverse p = o.entry? p := by
  rw [UndoLog.newestAt?, List.reverse_reverse]
  induction o with
  | nil => rfl
  | cons w older ih =>
    -- The newest write stands first on both sides.
    have hplace : (recordOver t committed older w).place = w.1 := rfl
    rw [records, List.find?_cons, entry?_cons, hplace]
    by_cases hp : p = w.1
    · rw [if_pos hp, decide_eq_true hp.symm]
      rfl
    · rw [if_neg hp, decide_eq_false fun h => hp h.symm]
      exact ih

/-- What is undone elsewhere leaves the newest write to a place as it is. -/
theorem entry?_drop_of_take {o : Overlay} {n : Nat}
    (h : ∀ r ∈ (records t committed o).take n, r.place ≠ p) :
    Overlay.entry? (o.drop n) p = o.entry? p := by
  induction o generalizing n with
  | nil => rw [List.drop_nil]
  | cons w older ih =>
    cases n with
    | zero => rfl
    | succ n =>
      -- The newest write is dropped, but it was made elsewhere.
      have hw : w.1 ≠ p := h (recordOver t committed older w) List.mem_cons_self
      have holder : ∀ r ∈ (records t committed older).take n, r.place ≠ p := by
        intro r hr
        exact h r (List.mem_cons_of_mem _ hr)
      rw [entry?_cons, if_neg hw.symm]
      exact ih holder

end Overlay

/-! ## One call -/

namespace OverlayMachine

variable {r : OverlayMachine} {t u : TxnId} {o : Overlay} {p : Place}

theorem overlay?_setOverlay_ne (h : t ≠ u) (o : Option Overlay) :
    (r.setOverlay u o).overlay? t = r.overlay? t := if_neg h

/-- What is done to the overlay of one transaction leaves those of the others. -/
theorem overlay?_onOverlay {α : Type} {f : Overlay → Except StoreError α × OverlayMachine}
    (hf : ∀ o, (f o).2.overlay? t = r.overlay? t) :
    (r.onOverlay u f).2.overlay? t = r.overlay? t := by
  unfold onOverlay
  cases r.overlay? u with
  | none => rfl
  | some o => exact hf o

theorem overlay?_read (r : OverlayMachine) (t u : TxnId) (p : Place) :
    (r.read u p).2.overlay? t = r.overlay? t := by
  apply overlay?_onOverlay
  intro o
  split <;> rfl

theorem overlay?_savepoint (r : OverlayMachine) (t u : TxnId) :
    (r.savepoint u).2.overlay? t = r.overlay? t := by
  apply overlay?_onOverlay
  intro o
  rfl

theorem overlay?_commit (h : t ≠ u) (verdict : Option StoreError) :
    (r.commit verdict u).2.overlay? t = r.overlay? t := by
  apply overlay?_onOverlay
  intro o
  cases verdict <;> exact overlay?_setOverlay_ne h none

theorem overlay?_rollback (h : t ≠ u) : (r.rollback u).2.overlay? t = r.overlay? t := by
  apply overlay?_onOverlay
  intro o
  exact overlay?_setOverlay_ne h none

/-- A write elsewhere, or of another transaction, leaves what a transaction has written to a
place. -/
theorem entry?_write (ho : r.overlay? t = some o) {q : Place} (h : u ≠ t ∨ q ≠ p)
    (payload : Option Value) :
    ∃ o', (r.write u q payload).2.overlay? t = some o' ∧ o'.entry? p = o.entry? p := by
  by_cases hut : u = t
  · subst hut
    have hq : q ≠ p := h.resolve_left fun hne => hne rfl
    -- Whatever refuses the write leaves the overlay; otherwise it is a write elsewhere.
    simp only [write, onOverlay, ho]
    split
    · exact ⟨o, ho, rfl⟩
    · split
      · exact ⟨o, ho, rfl⟩
      · split
        · exact ⟨o, ho, rfl⟩
        · refine ⟨(q, payload) :: o, if_pos rfl, ?_⟩
          rw [Overlay.entry?_cons, if_neg hq.symm]
  · refine ⟨o, ?_, rfl⟩
    rw [← ho]
    -- Another transaction's write leaves the overlay of this one alone.
    apply overlay?_onOverlay
    intro o'
    split
    · rfl
    · split
      · rfl
      · split
        · rfl
        · exact overlay?_setOverlay_ne (fun htu => hut htu.symm) _

end OverlayMachine

namespace Agrees

variable {e : Engine} {r : OverlayMachine} {t u : TxnId} {o : Overlay} {p : Place} {c : TxnCall}

/-- Going back to a savepoint leaves what a transaction has written to a place, unless a write there
is undone. -/
theorem entry?_rollbackTo (h : Agrees e r) (ho : r.overlay? t = some o) {n : Nat}
    (hspares : e.spares t p (.rollbackTo u n) = true) :
    ∃ o', (r.rollbackTo u n).2.overlay? t = some o' ∧ o'.entry? p = o.entry? p := by
  by_cases hut : u = t
  · subst hut
    rcases h.live_cases u with ⟨-, hnone⟩ | ⟨txn, o', hl, ho', hlog⟩
    · rw [ho] at hnone
      cases hnone
    · obtain rfl : o = o' := Option.some.inj (ho.symm.trans ho')
      have hundone : ∀ w ∈ txn.log.drop n, w.place ≠ p := by
        simpa [Engine.spares, hl] using hspares
      simp only [OverlayMachine.rollbackTo, OverlayMachine.onOverlay, ho]
      split
      · exact ⟨o, ho, rfl⟩
      · refine ⟨o.drop (o.length - n), if_pos rfl, ?_⟩
        -- The log has the oldest record first, so that what is undone stands at its end.
        have htaken : ∀ w ∈ (Overlay.records u r.committed o).take (o.length - n),
            w.place ≠ p := by
          intro w hw
          apply hundone w
          rw [hlog, List.drop_reverse, Overlay.length_records, List.mem_reverse]
          exact hw
        exact Overlay.entry?_drop_of_take htaken
  · refine ⟨o, ?_, rfl⟩
    rw [← ho]
    -- Another transaction goes back, which does not touch this overlay.
    apply OverlayMachine.overlay?_onOverlay
    intro o'
    split
    · rfl
    · exact OverlayMachine.overlay?_setOverlay_ne (fun htu => hut htu.symm) _

/-- A call that spares what a transaction has written to a place leaves the transaction under way
and its newest write there as it is. -/
theorem entry?_step (h : Agrees e r) (ho : r.overlay? t = some o)
    (hnew : c.isBegin = true → e.live.get? e.nextTxn = none) (hspares : e.spares t p c = true) :
    ∃ o', (r.step (e.verdict c) c).2.overlay? t = some o' ∧ o'.entry? p = o.entry? p := by
  cases c with
  | begin isolation =>
    refine ⟨o, ?_, rfl⟩
    -- The number of the new transaction is free, hence it is not that of this one.
    have ht : t ≠ r.nextTxn := by
      rintro rfl
      rcases h.live_cases r.nextTxn with ⟨-, hnone⟩ | ⟨txn, -, hl, -, -⟩
      · rw [ho] at hnone
        cases hnone
      · rw [h.nextTxn, hnew rfl] at hl
        cases hl
    exact (OverlayMachine.overlay?_setOverlay_ne ht _).trans ho
  | read u q => exact ⟨o, (r.overlay?_read t u q).trans ho, rfl⟩
  | savepoint u => exact ⟨o, (r.overlay?_savepoint t u).trans ho, rfl⟩
  -- A write by another transaction, or to another place, leaves the entry.
  | put u q value =>
    exact OverlayMachine.entry?_write ho (by simpa [Engine.spares] using hspares) (some value)
  | delete u q =>
    exact OverlayMachine.entry?_write ho (by simpa [Engine.spares] using hspares) none
  | rollbackTo u n => exact h.entry?_rollbackTo ho hspares
  | commit u =>
    -- What ends is another transaction.
    have hut : u ≠ t := by simpa [Engine.spares] using hspares
    exact ⟨o, (OverlayMachine.overlay?_commit hut.symm _).trans ho, rfl⟩
  | rollback u =>
    have hut : u ≠ t := by simpa [Engine.spares] using hspares
    exact ⟨o, (OverlayMachine.overlay?_rollback hut.symm).trans ho, rfl⟩
  | drop u =>
    have hut : u ≠ t := by simpa [Engine.spares] using hspares
    exact ⟨o, (OverlayMachine.overlay?_rollback hut.symm).trans ho, rfl⟩

/-- A commit that can be logged makes the newest writes of its transaction final. -/
theorem finalAt?_commit (h : Agrees e r) (hverdict : e.verdict (.commit u) = none) :
    e.finalAt? p (.commit u) = (r.overlay? u).bind fun o => o.entry? p := by
  simp only [Engine.finalAt?, hverdict]
  rcases h.live_cases u with ⟨hl, ho⟩ | ⟨txn, o, hl, ho, hlog⟩
  · rw [hl, ho]
    rfl
  · rw [hl, ho, Option.bind_some, Option.bind_some, hlog, Overlay.newestAt?_records]

/-- Only commits make anything final. -/
theorem finalAt?_of_not_commit (hc : c.isCommit = false) : e.finalAt? p c = none := by
  cases c with
  | commit u => cases hc
  | _ => rfl

/-- What is committed at a place of an open map after a call is what the call makes final there, or
else what was committed before. -/
theorem committed_step (h : Agrees e r) (c : TxnCall) (p : Place) :
    (r.step (e.verdict c) c).2.isOpen = r.isOpen ∧
      (r.isOpen p.map = true → (r.step (e.verdict c) c).2.committed p =
        (e.finalAt? p c).getD (r.committed p)) := by
  cases hc : c.isCommit with
  | false =>
    -- Only commits change what is committed.
    have hkeeps := OverlayMachine.KeepsCommitted.step r (e.verdict c) hc
    refine ⟨hkeeps.isOpen, fun _ => ?_⟩
    rw [hkeeps.committed, finalAt?_of_not_commit hc, Option.getD_none]
  | true =>
    cases c with
    | commit u =>
      cases hverdict : e.verdict (.commit u) with
      -- A refused commit is a rollback in this respect.
      | some err =>
        have hkeeps := OverlayMachine.KeepsCommitted.refused r err u
        refine ⟨hkeeps.isOpen, fun _ => ?_⟩
        simp only [Engine.finalAt?, hverdict, Option.getD_none]
        exact congrFun hkeeps.committed p
      | none =>
        rw [h.finalAt?_commit hverdict]
        -- What the transaction saw at an open place is what it leaves committed there.
        simp only [OverlayMachine.step, OverlayMachine.answering, OverlayMachine.commit,
          OverlayMachine.onOverlay]
        cases r.overlay? u with
        | none => exact ⟨rfl, fun _ => rfl⟩
        | some o =>
          refine ⟨rfl, fun hopen => ?_⟩
          simp only [OverlayMachine.settle, hopen, if_true, OverlayMachine.see, Option.bind_some]
    | _ => cases hc

/-- Nothing is made final at a place that a transaction has written and goes on holding. -/
theorem finalAt?_of_holds (h : Agrees e r) (ht : r.holds t p = true)
    (hspares : e.spares t p c = true) : e.finalAt? p c = none := by
  cases hc : c.isCommit with
  -- Nothing but a commit makes anything final.
  | false => exact finalAt?_of_not_commit hc
  | true =>
    cases c with
    | commit u =>
      cases hverdict : e.verdict (.commit u) with
      | some err => simp only [Engine.finalAt?, hverdict]
      | none =>
        -- Another transaction has committed, and it cannot have held the place as well.
        rw [h.finalAt?_commit hverdict, Option.bind_eq_none_iff]
        intro o ho
        cases hq : o.entry? p with
        | none => rfl
        | some q =>
          have hut : u ≠ t := by simpa [Engine.spares] using hspares
          exact absurd (h.exclusive (OverlayMachine.holds_of_entry? ho hq) ht) hut
    | _ => cases hc

end Agrees

/-! ## Calls one after the other -/

theorem Engine.judged_map_fst (e : Engine) (calls : List TxnCall) :
    (e.judged calls).map Prod.fst = calls := by
  induction calls generalizing e with
  | nil => rfl
  | cons c rest ih => exact congrArg (c :: ·) (ih (c.action.runOn e).2)

/-- Calls leave the numbers that they do not use. -/
theorem OverlayMachine.HasNumbers.run {r : OverlayMachine} {n : Nat}
    {calls : List (TxnCall × Option StoreError)}
    (h : r.HasNumbers (n + (calls.map Prod.fst).countP TxnCall.isBegin)) :
    (r.run calls).2.HasNumbers n := by
  induction calls generalizing r with
  | nil => exact h
  | cons call rest ih =>
    obtain ⟨c, verdict⟩ := call
    rw [List.map_cons, List.countP_cons, ← Nat.add_assoc] at h
    exact ih (h.step verdict)

/-- What a transaction has written to a place, and what is committed there, after calls that spare
what it has written. -/
theorem Agrees.serve_sparing {e : Engine} {r : OverlayMachine} (h : Agrees e r) {t : TxnId}
    {p : Place} {o : Overlay} (ho : r.overlay? t = some o) (calls : List TxnCall)
    (hnew : r.HasNumbers (calls.countP TxnCall.isBegin))
    (hspares : e.sparesAll t p calls = true) :
    ∃ r' o', Agrees (e.serve calls).2 r' ∧ r'.isOpen = r.isOpen ∧ r'.overlay? t = some o' ∧
      o'.entry? p = o.entry? p ∧
      (r.isOpen p.map = true →
        r'.committed p = (e.lastFinalAt? p calls).getD (r.committed p)) ∧
      (r.holds t p = true → e.lastFinalAt? p calls = none) := by
  -- The overlay varies along the run, since the transaction may go on writing elsewhere.
  induction calls generalizing e r o with
  | nil => exact ⟨r, o, h, rfl, ho, rfl, fun _ => rfl, fun _ => rfl⟩
  | cons c rest ih =>
    rw [List.countP_cons] at hnew
    rw [Engine.sparesAll, Bool.and_eq_true] at hspares
    obtain ⟨hc, hrest⟩ := hspares
    have hfirst : c.isBegin = true → e.live.get? e.nextTxn = none := h.fresh hnew
    -- The first call: neither the entry nor what is committed goes astray.
    obtain ⟨o₁, ho₁, hentry₁⟩ := h.entry?_step ho hfirst hc
    obtain ⟨hopen₁, hcommitted₁⟩ := h.committed_step c p
    obtain ⟨r', o', hagrees, hopen, ho', hentry, hcommitted, hfinal⟩ :=
      ih (h.step c hfirst).2 ho₁ (hnew.step (e.verdict c)) hrest
    refine ⟨r', o', hagrees, hopen.trans hopen₁, ho', hentry.trans hentry₁, fun hp => ?_,
      fun ht => ?_⟩
    · rw [hcommitted (by rw [hopen₁]; exact hp), hcommitted₁ hp, Engine.lastFinalAt?,
        Option.getD_or]
    · -- The transaction still holds the place after the first call.
      have ht₁ : (r.step (e.verdict c) c).2.holds t p = true := by
        obtain ⟨o₀, ho₀, hsome⟩ := OverlayMachine.holds_iff.mp ht
        obtain rfl : o = o₀ := Option.some.inj (ho.symm.trans ho₀)
        exact OverlayMachine.holds_iff.mpr ⟨o₁, ho₁, by rw [hentry₁]; exact hsome⟩
      rw [Engine.lastFinalAt?, hfinal ht₁, h.finalAt?_of_holds ht hc]
      rfl

/-! ## The main statement -/

/-- A transaction of any isolation reads a place, then other calls are served, and then it reads the
place again. Unless it has itself written there in between, undone a write there or ended, the
second read answers what the first one did, except that the last commit to make a write there final
in between replaces what was found. No commit does so if the transaction had written there before.
-/
theorem Engine.read_again {e : Engine} (hquiet : e.IsQuiet) (before between : List TxnCall)
    (hnumbers : e.HasNumbers ((before ++ between).countP TxnCall.isBegin)) {t : TxnId} {p : Place}
    (hlive : ((e.serve before).2.live.get? t).isSome = true)
    (hspares : (e.serve before).2.sparesAll t p between = true) :
    let first := ((Engine.read t p.map p.key).runOn (e.serve before).2).1
    let again := ((Engine.read t p.map p.key).runOn (e.serve (before ++ between)).2).1
    let final := (e.serve before).2.lastFinalAt? p between
    again = first.map final.getD ∧ ((e.serve before).2.HasWritten t p → final = none) := by
  intro first again final
  have hnew := hnumbers.ofEngine
  rw [List.countP_append, Nat.add_comm] at hnew
  -- The first read is made in agreement with a machine, in which the transaction is under way.
  obtain ⟨-, hagrees⟩ := hquiet.agrees.serve before
    ⟨by have := hnew.1; omega, fun i hi => hnew.2 i (by omega)⟩
  have hnext : ((OverlayMachine.ofEngine e).run (e.judged before)).2.HasNumbers
      (between.countP TxnCall.isBegin) :=
    OverlayMachine.HasNumbers.run (by rwa [e.judged_map_fst])
  generalize ((OverlayMachine.ofEngine e).run (e.judged before)).2 = r at hagrees hnext
  -- Being live, the transaction has an overlay.
  obtain ⟨o, ho⟩ : ∃ o, r.overlay? t = some o := by
    rcases hagrees.live_cases t with ⟨hnone, -⟩ | ⟨-, o, -, ho, -⟩
    · rw [hnone] at hlive
      cases hlive
    · exact ⟨o, ho⟩
  obtain ⟨r', o', hagrees', hopen, ho', hentry, hcommitted, hfinal⟩ :=
    hagrees.serve_sparing ho between hnext hspares
  have hheld : (e.serve before).2.HasWritten t p → final = none := fun ht =>
    hfinal (hagrees.hasWritten_iff.mp ht)
  -- Both reads are answered by what the machine sees.
  have hfirst : first = if r.isOpen p.map then .ok (r.see o p) else .error (.mapNotFound p.map) := by
    rw [show first = _ from (hagrees.read t p).1]
    simp only [OverlayMachine.read, OverlayMachine.onOverlay, ho]
    split <;> rfl
  have hagain : again =
      if r.isOpen p.map then .ok (r'.see o' p) else .error (.mapNotFound p.map) := by
    have hread := (hagrees'.read t p).1
    rw [← congrArg Prod.snd (e.serve_append before between)] at hread
    rw [show again = _ from hread]
    simp only [OverlayMachine.read, OverlayMachine.onOverlay, ho', hopen]
    split <;> rfl
  refine ⟨?_, hheld⟩
  -- An entry hides whatever is committed; without one the last commit shows.
  rw [hfirst, hagain]
  cases hp : r.isOpen p.map with
  | false => rfl
  | true =>
    simp only [if_true, Except.map, OverlayMachine.see, hentry, hcommitted hp]
    cases hq : o.entry? p with
    | none => rfl
    | some q =>
      have hnone : final = none :=
        hfinal (OverlayMachine.holds_of_entry? ho hq)
      rw [hnone]
      rfl

/-- A serializable transaction reads a key, another one commits to it, and a third one rolls back.
The second read gives what was committed in between. -/
theorem Engine.read_again_of_two_commits :
    let e := Engine.withIntegers "m"
    let p : Place := ⟨"m", .int 7⟩
    let before : List TxnCall := [.begin (some .serializable), .read ⟨1⟩ p]
    let between : List TxnCall :=
      [.begin none, .put ⟨2⟩ p (.int 1), .put ⟨2⟩ p (.int 2), .commit ⟨2⟩, .begin none,
        .delete ⟨3⟩ p, .rollback ⟨3⟩]
    e.IsQuiet ∧ e.HasNumbers ((before ++ between).countP TxnCall.isBegin) ∧
      ((e.serve before).2.live.get? ⟨1⟩).isSome = true ∧
      (e.serve before).2.sparesAll ⟨1⟩ p between = true ∧
      (e.serve before).2.lastFinalAt? p between = some (some (.int 2)) ∧
      ((Engine.read ⟨1⟩ p.map p.key).runOn (e.serve (before ++ between)).2).1 =
        .ok (some (.int 2)) := by
  intro e p before between
  have hquiet : e.IsQuiet := Engine.isQuiet_withIntegers "m"
  have hnumbers : e.HasNumbers ((before ++ between).countP TxnCall.isBegin) :=
    ⟨by decide, fun _ _ => rfl⟩
  have hlive : ((e.serve before).2.live.get? ⟨1⟩).isSome = true := rfl
  have hspares : (e.serve before).2.sparesAll ⟨1⟩ p between = true := by decide +kernel
  have hfinal : (e.serve before).2.lastFinalAt? p between = some (some (.int 2)) := by
    decide +kernel
  obtain ⟨hagain, -⟩ := Engine.read_again hquiet before between hnumbers hlive hspares
  refine ⟨hquiet, hnumbers, hlive, hspares, hfinal, ?_⟩
  rw [hagain, hfinal]
  rfl

/-- A transaction that is to read the same again reads a place, another one commits an overwrite or
a delete there, and the first one reads something else. -/
theorem Engine.read_again_changes :
    let p : Place := ⟨"m", .int 7⟩
    let answers (isolation : Isolation) (other : TxnCall) :=
      ((Engine.withIntegers "m").serve
        [.begin none, .put ⟨1⟩ p (.int 1), .commit ⟨1⟩, .begin (some isolation), .read ⟨2⟩ p,
          .begin none, other, .commit ⟨3⟩, .read ⟨2⟩ p]).1
    answers .repeatableRead (.put ⟨3⟩ p (.int 2)) =
        [.ok (.begun ⟨1⟩), .ok .done, .ok .done, .ok (.begun ⟨2⟩), .ok (.found (some (.int 1))),
          .ok (.begun ⟨3⟩), .ok .done, .ok .done, .ok (.found (some (.int 2)))] ∧
      answers .serializable (.delete ⟨3⟩ p) =
        [.ok (.begun ⟨1⟩), .ok .done, .ok .done, .ok (.begun ⟨2⟩), .ok (.found (some (.int 1))),
          .ok (.begun ⟨3⟩), .ok (.deleted true), .ok .done, .ok (.found none)] :=
  ⟨rfl, rfl⟩

end TxnStore
