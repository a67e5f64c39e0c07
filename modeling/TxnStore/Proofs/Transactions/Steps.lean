import TxnStore.Proofs.Transactions.Simulation

/-!
# One call at a time

For each kind of call: the engine and the machine of overlays answer it alike and stay in agreement.
-/

namespace TxnStore

open TxnStore.Action

namespace OverlayMachine

variable {r : OverlayMachine} {t u : TxnId} {p : Place} {o : Overlay}

/-- A transaction that starts holds nothing. -/
theorem holds_start (hnew : r.overlay? r.nextTxn = none) (u : TxnId) (p : Place) :
    r.start.holds u p = r.holds u p := by
  show (r.setOverlay r.nextTxn (some [])).holds u p = r.holds u p
  rw [holds_setOverlay]
  by_cases h : u = r.nextTxn
  · simp [h, holds, hnew]
  · simp [h]

/-- Where no other holder is found, there is none. -/
theorem holds_eq_false_of_otherHolder? (hbegun : ∀ u, (r.overlay? u).isSome = true → u ∈ r.begun)
    (hother : r.otherHolder? t p = none) (hut : u ≠ t) : r.holds u p = false := by
  cases hu : r.holds u p with
  | false => rfl
  | true =>
    obtain ⟨o, ho, -⟩ := holds_iff.mp hu
    rw [otherHolder?, List.find?_eq_none] at hother
    have := hother u (hbegun u (by rw [ho]; rfl))
    simp [hut, hu] at this

/-- After a write to a place, the writer holds that place as well. -/
theorem holds_written (ho : r.overlay? t = some o) (payload : Option Value) (u : TxnId)
    (p' : Place) :
    (r.setOverlay t (some ((p, payload) :: o))).holds u p' =
      (decide (u = t ∧ p' = p) || r.holds u p') := by
  rw [holds_setOverlay]
  by_cases hut : u = t
  · subst hut
    by_cases hp : p' = p <;> simp [holds, ho, hp, Overlay.entry?_cons]
  · simp [hut]

/-- A write to a place that no other transaction holds leaves the places exclusive. -/
theorem Exclusive.written (h : r.Exclusive) (ho : r.overlay? t = some o)
    (hfree : ∀ u, u ≠ t → r.holds u p = false) (payload : Option Value) :
    (r.setOverlay t (some ((p, payload) :: o))).Exclusive := by
  intro u v p' hu hv
  rw [holds_written ho] at hu hv
  by_cases hp : p' = p
  · subst hp
    -- Nobody else holds the place, so that whoever holds it now is the writer.
    have honly : ∀ w, (decide (w = t ∧ p' = p') || r.holds w p') = true → w = t := by
      intro w hw
      by_cases hwt : w = t
      · exact hwt
      · simp [hwt, hfree w hwt] at hw
    rw [honly u hu, honly v hv]
  · simp only [hp, and_false, decide_false, Bool.false_or] at hu hv
    exact h hu hv

end OverlayMachine

/-! ## Slots after a write and after a commit -/

namespace SlotsAgree

variable {maps : Table String VersionMap} {r : OverlayMachine} {t : TxnId} {o : Overlay} {p : Place}

theorem written (h : SlotsAgree maps r) {m : VersionMap} (hm : maps.get? p.map = some m)
    (ho : r.overlay? t = some o) (hfree : ∀ u, u ≠ t → r.holds u p = false)
    (payload : Option Value) :
    SlotsAgree (maps.insert p.map (m.put p.key (.written t payload (r.committed p))).2)
      (r.setOverlay t (some ((p, payload) :: o))) := by
  have hslot := slotAt_insert hm (m.get?_put p.key · (.written t payload (r.committed p)))
  refine ⟨fun name => ?_, ?_, ?_⟩
  · rw [contains_insert_of_get? hm]
    exact h.isOpen name
  · -- Held places: the one written to has the new version, the others have what they had.
    intro u o' p' q hopen hu hq
    rw [hslot]
    by_cases hut : u = t
    · subst hut
      obtain rfl : (p, payload) :: o = o' := by simpa [OverlayMachine.setOverlay] using hu
      rw [Overlay.entry?_cons] at hq
      by_cases hp : p' = p
      · subst hp
        obtain rfl : payload = q := by simpa using hq
        rw [if_pos rfl]
        rfl
      · rw [if_neg hp] at hq ⊢
        exact h.held hopen ho hq
    · have hu' : r.overlay? u = some o' := by simpa [OverlayMachine.setOverlay, hut] using hu
      have hp : p' ≠ p := by
        rintro rfl
        exact absurd (OverlayMachine.holds_of_entry? hu' hq) (by simp [hfree u hut])
      rw [if_neg hp]
      exact h.held hopen hu' hq
  · -- Free places: none of them is the one written to.
    intro p' hopen hnobody
    have hnobody' : ∀ u, ¬(u = t ∧ p' = p) ∧ r.holds u p' = false := by
      intro u
      have := hnobody u
      rw [OverlayMachine.holds_written ho] at this
      simpa using this
    have hp : p' ≠ p := fun hp => (hnobody' t).1 ⟨rfl, hp⟩
    rw [hslot, if_neg hp]
    exact h.free hopen fun u => (hnobody' u).2

/-- A transaction without writes may end. -/
theorem ended (h : SlotsAgree maps (r.setOverlay t (some []))) :
    SlotsAgree maps (r.setOverlay t none) := by
  refine ⟨h.isOpen, ?_, ?_⟩
  · -- An ended transaction holds no place, and all the others hold what they held.
    intro u o p q hopen hu hq
    have hut : u ≠ t := by
      rintro rfl
      simp [OverlayMachine.setOverlay] at hu
    exact h.held hopen (by simpa [OverlayMachine.setOverlay, hut] using hu) hq
  · intro p hopen hnobody
    apply h.free hopen
    -- Its last overlay was empty, so that it held nothing that would become free now.
    intro u
    have := hnobody u
    rw [OverlayMachine.holds_setOverlay] at this ⊢
    split
    · simp
    · next hut => rwa [if_neg hut] at this

/-- The slots after the writes of a transaction were made final. -/
theorem settled {e : Engine} (h : SlotsAgree e.maps r) (hexcl : r.Exclusive)
    (ho : r.overlay? t = some o) :
    SlotsAgree (UndoLog.commit (Overlay.records t r.committed o).reverse e).2.maps
      (r.settle t o) := by
  obtain ⟨hopen', hslots⟩ := slotAt_commit_records t r.committed o e
  refine ⟨fun name => ?_, ?_, ?_⟩
  · -- Making writes final opens and closes no map.
    rw [hopen']
    exact h.isOpen name
  · intro u o' p q hopen hu hq
    have hut : u ≠ t := by
      rintro rfl
      simp [OverlayMachine.settle, OverlayMachine.setOverlay] at hu
    have hu' : r.overlay? u = some o' := by
      simpa [OverlayMachine.settle, OverlayMachine.setOverlay, hut] using hu
    -- What another transaction holds is not in the overlay that is laid down.
    have hnone : o.entry? p = none := by
      cases hp : o.entry? p with
      | none => rfl
      | some q' =>
        exact absurd (hexcl (OverlayMachine.holds_of_entry? hu' hq)
          (OverlayMachine.holds_of_entry? ho hp)) hut
    have hp := hslots p ((h.isOpen p.map).symm.trans hopen)
    rw [hnone] at hp
    have hcommitted : (r.settle t o).committed p = r.committed p := by
      simp [OverlayMachine.settle, OverlayMachine.see, hnone]
    rw [hp, hcommitted]
    exact h.held hopen hu' hq
  · intro p hopen hnobody
    have hopen₀ : r.isOpen p.map = true := hopen
    -- A place that is free now was held by this transaction alone or by nobody.
    have hcommitted : (r.settle t o).committed p = r.see o p := by
      simp [OverlayMachine.settle, hopen₀]
    have hp := hslots p ((h.isOpen p.map).symm.trans hopen)
    rw [hcommitted, OverlayMachine.see]
    cases hq : o.entry? p with
    | some q =>
      rw [hq] at hp
      exact hp
    -- Nothing was laid down here, and the place was as free before as it is now.
    | none =>
      rw [hq] at hp
      rw [hp]
      apply h.free hopen
      intro u
      by_cases hut : u = t
      · simp [hut, OverlayMachine.holds, ho, hq]
      · have := hnobody u
        rwa [show (r.settle t o).holds u p = (r.setOverlay t none).holds u p from rfl,
          OverlayMachine.holds_setOverlay, if_neg hut] at this

end SlotsAgree

/-! ## Calls -/

namespace Agrees

variable {e e' : Engine} {r : OverlayMachine}

theorem start (h : Agrees e r) (isolation : Isolation) (hnew : e.live.get? e.nextTxn = none) :
    Matches ((Engine.beginWith isolation).runOn e) (.ok r.nextTxn, r.start) := by
  -- The machine does not know the number yet either.
  have hnew' : r.overlay? r.nextTxn = none := by
    have hlog := h.logs r.nextTxn
    rw [h.nextTxn, hnew] at hlog
    rw [h.nextTxn]
    simpa using hlog.symm
  rw [Engine.runOn_beginWith]
  refine ⟨by rw [h.nextTxn], ?_, ?_, ?_, ?_, ?_⟩
  · -- The slots stay, since a new transaction holds nothing.
    refine ⟨h.slots.isOpen, ?_, ?_⟩
    · intro u o p q hopen hu hq
      by_cases hut : u = r.nextTxn
      · obtain rfl : [] = o := by
          simpa [OverlayMachine.start, OverlayMachine.setOverlay, hut] using hu
        simp at hq
      · have hu' : r.overlay? u = some o := by
          simpa [OverlayMachine.start, OverlayMachine.setOverlay, hut] using hu
        exact h.slots.held hopen hu' hq
    · intro p hopen hnobody
      apply h.slots.free hopen
      intro u
      rw [← OverlayMachine.holds_start hnew']
      exact hnobody u
  · -- The new transaction holds nothing, so that it takes part in no conflict.
    intro t u p ht hu
    rw [OverlayMachine.holds_start hnew'] at ht hu
    exact h.exclusive ht hu
  · show (⟨r.nextTxn.val + 1⟩ : TxnId) = ⟨e.nextTxn.val + 1⟩
    rw [h.nextTxn]
  · -- Its log is empty, as is its overlay.
    intro t
    have hlog := h.logs t
    show ((e.live.insert e.nextTxn ⟨isolation, []⟩).get? t).map LiveTransaction.log = _
    rw [Table.get?_insert, ← h.nextTxn]
    by_cases ht : t = r.nextTxn
    · simp [ht, OverlayMachine.start, OverlayMachine.setOverlay, Overlay.records]
    · simpa [ht, OverlayMachine.start, OverlayMachine.setOverlay] using hlog
  · -- It is counted among those that were begun.
    intro t ht
    by_cases htn : t = r.nextTxn
    · simp [htn, OverlayMachine.start]
    · have ht' : (r.overlay? t).isSome = true := by
        simpa [OverlayMachine.start, OverlayMachine.setOverlay, htn] using ht
      exact List.mem_cons_of_mem _ (h.begun t ht')

theorem read (h : Agrees e r) (t : TxnId) (p : Place) :
    Matches ((Engine.read t p.map p.key).runOn e) (r.read t p) := by
  rw [Engine.runOn_read, OverlayMachine.read, OverlayMachine.onOverlay]
  -- Both sides refuse a transaction that has ended.
  rcases h.live_cases t with ⟨hl, ho⟩ | ⟨txn, o, hl, ho, -⟩
  · simp only [hl, ho]
    exact ⟨rfl, h⟩
  · have hopen := h.slots.isOpen p.map
    cases hm : e.maps.get? p.map with
    -- Both sides refuse a map that is not open.
    | none =>
      rw [Table.contains, hm] at hopen
      simp only [hl, ho, hopen]
      exact ⟨rfl, h⟩
    | some m =>
      rw [Table.contains, hm] at hopen
      have hsee := h.slots.visible hopen ho
      rw [slotAt, hm, Option.bind_some] at hsee
      simp only [hl, ho, hopen, hsee]
      exact ⟨rfl, h⟩

theorem savepoint (h : Agrees e r) (t : TxnId) :
    Matches ((Engine.savepoint t).runOn e) (r.savepoint t) := by
  rw [Engine.runOn_savepoint, OverlayMachine.savepoint, OverlayMachine.onOverlay]
  rcases h.live_cases t with ⟨hl, ho⟩ | ⟨txn, o, hl, ho, hlog⟩
  · simp only [hl, ho]
    exact ⟨rfl, h⟩
  · simp only [hl, ho, length_log hlog]
    exact ⟨rfl, h⟩

/-- The logs of the engine after one transaction has got another overlay. -/
theorem logs_setLog (h : Agrees e r) (hlive : e'.live = e.live) {t : TxnId} {txn : LiveTransaction}
    (hl : e.live.get? t = some txn) {log : UndoLog} {o : Overlay}
    (hlog : log = (Overlay.records t r.committed o).reverse) (u : TxnId) :
    ((e'.setLog t log).live.get? u).map LiveTransaction.log =
      ((r.setOverlay t (some o)).overlay? u).map fun o =>
        (Overlay.records u (r.setOverlay t (some o)).committed o).reverse := by
  rw [Engine.get?_live_setLog, hlive]
  by_cases hut : u = t
  · subst hut
    simp [hl, hlog, OverlayMachine.setOverlay]
  · simpa [hut, OverlayMachine.setOverlay] using h.logs u

/-- What one transaction is given leaves all those that have an overlay begun. -/
theorem begun_setOverlay (h : Agrees e r) {t : TxnId} (ht : (r.overlay? t).isSome = true)
    (o : Option Overlay) (u : TxnId) (hu : ((r.setOverlay t o).overlay? u).isSome = true) :
    u ∈ r.begun := by
  by_cases hut : u = t
  · exact hut ▸ h.begun t ht
  · exact h.begun u (by simpa [OverlayMachine.setOverlay, hut] using hu)

theorem write (h : Agrees e r) (t : TxnId) (p : Place) (payload : Option Value) :
    Matches ((Engine.write t p.map p.key payload).runOn e) (r.write t p payload) := by
  rw [Engine.runOn_write, OverlayMachine.write, OverlayMachine.onOverlay]
  rcases h.live_cases t with ⟨hl, ho⟩ | ⟨txn, o, hl, ho, hlog⟩
  · -- A transaction that has ended, a map that is not open: both sides refuse.
    simp only [hl, ho]
    exact ⟨rfl, h⟩
  · have hopen := h.slots.isOpen p.map
    cases hm : e.maps.get? p.map with
    | none =>
      rw [Table.contains, hm] at hopen
      simp only [hl, ho, hopen]
      exact ⟨rfl, h⟩
    | some m =>
      rw [Table.contains, hm] at hopen
      have hslot : slotAt e.maps p = m.get? p.key := by rw [slotAt, hm, Option.bind_some]
      -- What the engine finds in the slot is what the machine knows of the place.
      have howner := h.slots.owner h.exclusive h.begun hopen t
      have hsee := h.slots.visible hopen ho
      have hlast := h.slots.lastCommitted hopen
      rw [hslot] at howner hsee hlast
      simp only [hl, ho, hopen, Engine.versionToWrite, howner, hsee, hlast]
      cases hother : r.otherHolder? t p with
      -- Somebody else has written here, and both sides name the same one.
      | some u => exact ⟨rfl, h⟩
      | none =>
        cases hskip : payload.isNone && (r.see o p).isNone with
        -- There is nothing to delete, on either side.
        | true => exact ⟨rfl, h⟩
        | false =>
          have hfree : ∀ u, u ≠ t → r.holds u p = false := fun u hut =>
            OverlayMachine.holds_eq_false_of_otherHolder? h.begun hother hut
          have hold := h.slots.replaced hopen ho hfree
          rw [hslot] at hold
          -- Otherwise the same version is written, and the record of it is the newest one on both
          -- sides.
          refine ⟨rfl, ?_, ?_, h.nextTxn, ?_, ?_⟩
          · exact h.slots.written hm ho hfree payload
          · exact h.exclusive.written ho hfree payload
          · apply h.logs_setLog rfl hl
            simp only [hold, hlog, Overlay.records, List.reverse_cons]
            rfl
          · exact h.begun_setOverlay (by rw [ho]; rfl) _

theorem rollbackTo (h : Agrees e r) (t : TxnId) (n : Nat) :
    Matches ((Engine.rollbackTo t n).runOn e) (r.rollbackTo t n) := by
  rw [Engine.runOn_rollbackTo, OverlayMachine.rollbackTo, OverlayMachine.onOverlay]
  rcases h.live_cases t with ⟨hl, ho⟩ | ⟨txn, o, hl, ho, hlog⟩
  · simp only [hl, ho]
    exact ⟨rfl, h⟩
  · simp only [hl, ho, length_log hlog]
    by_cases hn : o.length < n
    · simp only [if_pos hn]
      exact ⟨rfl, h⟩
    · simp only [if_neg hn]
      -- The log has the oldest record first and the overlay the newest write; what is undone are
      -- the newest ones of both.
      have hundone : (txn.log.drop n).reverse =
          (Overlay.records t r.committed o).take (o.length - n) := by
        rw [hlog, List.drop_reverse, List.reverse_reverse, Overlay.length_records]
      have hkept : txn.log.take n =
          (Overlay.records t r.committed (o.drop (o.length - n))).reverse := by
        rw [hlog, List.take_reverse, Overlay.length_records, Overlay.records_drop]
      have hframe := UndoLog.revertAll_eq (txn.log.drop n).reverse e
      refine ⟨rfl, ?_, h.exclusive.dropped ho _, ?_, ?_, ?_⟩
      · show SlotsAgree (UndoLog.revertAll (txn.log.drop n).reverse e).2.maps _
        rw [hundone]
        exact h.slots.revertAll h.exclusive ho
      · show r.nextTxn = (UndoLog.revertAll (txn.log.drop n).reverse e).2.nextTxn
        rw [hframe]
        exact h.nextTxn
      · exact h.logs_setLog (by rw [hframe]) hl hkept
      · exact h.begun_setOverlay (by rw [ho]; rfl) _

/-- The logs of the engine after one transaction has ended and left committed payloads at the places
that it held. -/
theorem logs_finish (h : Agrees e r) (hlive : e'.live = e.live) (t : TxnId)
    {committed : Place → Option Value}
    (hsame : ∀ u p, u ≠ t → r.holds u p = true → r.committed p = committed p) (u : TxnId) :
    ((e'.finish t).live.get? u).map LiveTransaction.log =
      ((r.setOverlay t none).overlay? u).map fun o =>
        (Overlay.records u committed o).reverse := by
  -- The transaction that has ended is gone from both sides, and the others have not moved.
  rw [Engine.live_finish, Table.get?_erase, hlive]
  by_cases hut : u = t
  · simp [hut, OverlayMachine.setOverlay]
  · have hlog := h.logs u
    rw [if_neg hut, hlog]
    cases ho : r.overlay? u with
    | none => simp [ho, OverlayMachine.setOverlay, hut]
    | some o =>
      -- The records of another transaction depend on what is committed at its own places only.
      have hrecords : Overlay.records u r.committed o = Overlay.records u committed o :=
        Overlay.records_congr fun p hp =>
          hsame u p hut (OverlayMachine.holds_iff.mpr ⟨o, ho, hp⟩)
      simp [ho, OverlayMachine.setOverlay, hut, hrecords]

/-- A transaction whose writes are undone leaves nothing behind. -/
theorem aborted (h : Agrees e r) {t : TxnId} {txn : LiveTransaction} {o : Overlay}
    (ho : r.overlay? t = some o) (hlog : txn.log = (Overlay.records t r.committed o).reverse) :
    Agrees (e.aborted t txn.log) (r.setOverlay t none) := by
  -- Undoing the whole log is going back to the first savepoint there could be.
  have hundone : (txn.log.drop 0).reverse = (Overlay.records t r.committed o).take o.length := by
    have hlength : (Overlay.records t r.committed o).length = o.length := Overlay.length_records o
    rw [hlog, List.drop_zero, List.reverse_reverse, ← hlength, List.take_length]
  have hframe := UndoLog.revertAll_eq (txn.log.drop 0).reverse e
  refine ⟨?_, h.exclusive.ended t, ?_, ?_, ?_⟩
  · -- Undoing everything leaves the empty overlay, which is then given up.
    show SlotsAgree ((UndoLog.revertAll (txn.log.drop 0).reverse e).2.finish t).maps _
    rw [Engine.maps_finish, hundone]
    have hslots := h.slots.revertAll (n := o.length) h.exclusive ho
    rw [List.drop_length] at hslots
    exact hslots.ended
  · show r.nextTxn = ((UndoLog.revertAll (txn.log.drop 0).reverse e).2.finish t).nextTxn
    rw [Engine.nextTxn_finish, hframe]
    exact h.nextTxn
  · exact h.logs_finish (by rw [hframe]) t fun _ _ _ _ => rfl
  · exact h.begun_setOverlay (by rw [ho]; rfl) none

/-- A transaction whose writes are made final lays its overlay over the committed payloads. -/
theorem committed (h : Agrees e r) {t : TxnId} {txn : LiveTransaction} {o : Overlay}
    (ho : r.overlay? t = some o) (hlog : txn.log = (Overlay.records t r.committed o).reverse) :
    Agrees (e.committed t txn.log) (r.settle t o) := by
  have hframe := UndoLog.commit_eq txn.log e
  refine ⟨?_, h.exclusive.ended t, ?_, ?_, ?_⟩
  · -- Its writes are made final in the slots and in what the machine holds committed.
    show SlotsAgree ((UndoLog.commit txn.log e).2.finish t).maps _
    rw [Engine.maps_finish, hlog]
    exact h.slots.settled h.exclusive ho
  · show r.nextTxn = ((UndoLog.commit txn.log e).2.finish t).nextTxn
    rw [Engine.nextTxn_finish, hframe]
    exact h.nextTxn
  · refine h.logs_finish (by rw [hframe]) t ?_
    -- A place that another transaction holds is not in the overlay that is laid down.
    intro u p hut hu
    have hnone : o.entry? p = none := by
      cases hq : o.entry? p with
      | none => rfl
      | some q => exact absurd (h.exclusive hu (OverlayMachine.holds_of_entry? ho hq)) hut
    simp [OverlayMachine.settle, OverlayMachine.see, hnone]
  · exact h.begun_setOverlay (by rw [ho]; rfl) none

theorem rollback (h : Agrees e r) (t : TxnId) :
    Matches ((Engine.rollback t).runOn e) (r.rollback t) := by
  rw [Engine.runOn_rollback, OverlayMachine.rollback, OverlayMachine.onOverlay]
  rcases h.live_cases t with ⟨hl, ho⟩ | ⟨txn, o, hl, ho, hlog⟩
  · simp only [hl, ho]
    exact ⟨rfl, h⟩
  · simp only [hl, ho]
    exact ⟨rfl, h.aborted ho hlog⟩

theorem commit (h : Agrees e r) (t : TxnId) :
    Matches ((Engine.commit t).runOn e) (r.commit (e.verdict (.commit t)) t) := by
  rw [Engine.runOn_commit, OverlayMachine.commit, OverlayMachine.onOverlay, Engine.verdict]
  rcases h.live_cases t with ⟨hl, ho⟩ | ⟨txn, o, hl, ho, hlog⟩
  · simp only [hl, ho]
    exact ⟨rfl, h⟩
  · -- Logging touches neither maps nor transactions, so the machine does not see it, and its
    -- outcome is the verdict on the commit.
    have hlogged := h.of_sameWork (Engine.runOn_logWrites_sameWork t txn.log e)
    simp only [hl, ho]
    rcases hw : (Engine.logWrites t txn.log).runOn e with ⟨err | u, e'⟩
    · rw [hw] at hlogged
      exact ⟨rfl, hlogged.aborted ho hlog⟩
    · rw [hw] at hlogged
      exact ⟨rfl, hlogged.committed ho hlog⟩

end Agrees

/-- Agreement survives when both outcomes are named as answers. -/
theorem Matches.answering {α : Type} {a : Action Engine α} {e : Engine}
    {b : Except StoreError α × OverlayMachine} (h : Matches (a.runOn e) b) (f : α → TxnAnswer) :
    Matches ((f <$> a).runOn e) (OverlayMachine.answering f b) := by
  rw [runOn_map]
  exact ⟨congrArg (Except.map f) h.1, h.2⟩

/-- Every call is answered alike and keeps the agreement, provided that a transaction that starts is
not given the number of one under way. -/
theorem Agrees.step {e : Engine} {r : OverlayMachine} (h : Agrees e r) (c : TxnCall)
    (hnew : c.isBegin = true → e.live.get? e.nextTxn = none) :
    Matches (c.action.runOn e) (r.step (e.verdict c) c) := by
  cases c with
  -- The default isolation is read off the engine, and the machine knows of none.
  | begin isolation =>
    have hstart := h.start (isolation.getD e.settings.defaultIsolation) (hnew rfl)
    have haction : (TxnCall.begin isolation).action.runOn e =
        ((TxnAnswer.begun <$> Engine.beginWith
          (isolation.getD e.settings.defaultIsolation)).runOn e) := by
      rw [TxnCall.action, runOn_bind, runOn_get]
    rw [haction]
    exact hstart.answering .begun
  | read t p => exact (h.read t p).answering .found
  -- A put is a write that gives no answer.
  | put t p value =>
    have hwrite := (h.write t p (some value)).answering fun _ => TxnAnswer.done
    have haction : (TxnCall.put t p value).action.runOn e =
        (((fun _ => TxnAnswer.done) <$> Engine.write t p.map p.key (some value)).runOn e) := by
      simp only [TxnCall.action, Engine.put, runOn_map, bind_pure_comp]
      cases ((Engine.write t p.map p.key (some value)).runOn e).1 <;> rfl
    rw [haction]
    exact hwrite
  | delete t p => exact (h.write t p none).answering .deleted
  | savepoint t => exact (h.savepoint t).answering .saved
  | rollbackTo t n => exact (h.rollbackTo t n).answering fun _ => .done
  | commit t => exact (h.commit t).answering fun _ => .done
  | rollback t => exact (h.rollback t).answering fun _ => .done
  -- Dropping is rolling back, and no answer is asked for.
  | drop t => exact ⟨rfl, (h.rollback t).2⟩

end TxnStore
