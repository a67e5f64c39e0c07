import TxnStore.Proofs.Transactions.Slots

/-!
# Engines act as machines of overlays

An engine agrees with a machine of overlays while its slots stand for the machine's overlays and the
log of each transaction under way is the one that its overlay determines. Each call keeps the two in
agreement and is answered alike by both.
-/

namespace TxnStore

open TxnStore.Action

/-! ## Agreement -/

/-- An engine and a machine of overlays that tell the same of all transactions. -/
structure Agrees (e : Engine) (r : OverlayMachine) : Prop where
  slots : SlotsAgree e.maps r
  exclusive : r.Exclusive
  nextTxn : r.nextTxn = e.nextTxn
  logs : ∀ t, (e.live.get? t).map LiveTransaction.log =
    (r.overlay? t).map fun o => (Overlay.records t r.committed o).reverse
  begun : ∀ t, (r.overlay? t).isSome = true → t ∈ r.begun

/-- Two ways to carry out a call that answer alike and end in agreement. -/
def Matches {α : Type} (a : Except StoreError α × Engine)
    (b : Except StoreError α × OverlayMachine) : Prop :=
  a.1 = b.1 ∧ Agrees a.2 b.2

namespace Agrees

variable {e e' : Engine} {r : OverlayMachine} {t : TxnId} {o : Overlay} {p : Place}

theorem of_sameWork (h : Agrees e r) (hsame : SameWork e e') : Agrees e' r where
  slots := hsame.maps ▸ h.slots
  exclusive := h.exclusive
  nextTxn := h.nextTxn.trans hsame.nextTxn.symm
  logs := hsame.live ▸ h.logs
  begun := h.begun

/-- A transaction is under way in both or in neither. -/
theorem live_cases (h : Agrees e r) (t : TxnId) :
    (e.live.get? t = none ∧ r.overlay? t = none) ∨
      ∃ txn o, e.live.get? t = some txn ∧ r.overlay? t = some o ∧
        txn.log = (Overlay.records t r.committed o).reverse := by
  -- The logs agree, hence a transaction is live on both sides or on neither.
  have hlog := h.logs t
  cases hl : e.live.get? t with
  | none =>
    left
    exact ⟨rfl, by simpa [hl] using hlog.symm⟩
  | some txn =>
    right
    cases ho : r.overlay? t with
    | none => simp [hl, ho] at hlog
    | some o => exact ⟨txn, o, rfl, rfl, by simpa [hl, ho] using hlog⟩

theorem length_log {txn : LiveTransaction}
    (hlog : txn.log = (Overlay.records t r.committed o).reverse) : txn.log.length = o.length := by
  rw [hlog, List.length_reverse, Overlay.length_records]

end Agrees

/-! ## What a slot tells -/

namespace SlotsAgree

variable {maps : Table String VersionMap} {r : OverlayMachine} {t : TxnId} {o : Overlay} {p : Place}

/-- The slot of an open map belongs to the transaction that holds its place, or shows the committed
payload. -/
theorem slot_cases (h : SlotsAgree maps r) (hopen : r.isOpen p.map = true) :
    (∃ u o q, r.overlay? u = some o ∧ o.entry? p = some q ∧
        slotAt maps p = some (.written u q (r.committed p))) ∨
      ((∀ u, r.holds u p = false) ∧ IsSettled (slotAt maps p) (r.committed p)) := by
  by_cases hheld : ∃ u, r.holds u p = true
  · left
    obtain ⟨u, hu⟩ := hheld
    obtain ⟨o, ho, hentry⟩ := OverlayMachine.holds_iff.mp hu
    obtain ⟨q, hq⟩ := Option.isSome_iff_exists.mp hentry
    exact ⟨u, o, q, ho, hq, h.held hopen ho hq⟩
  · right
    have hfree : ∀ u, r.holds u p = false := by simpa using hheld
    exact ⟨hfree, h.free hopen hfree⟩

/-- A transaction reads its own newest write to a place, or else what was committed there. -/
theorem visible (h : SlotsAgree maps r) (hopen : r.isOpen p.map = true)
    (ho : r.overlay? t = some o) :
    (slotAt maps p).bind (fun v => v.visibleTo t) = r.see o p := by
  unfold OverlayMachine.see
  cases hq : o.entry? p with
  -- The newest write of the transaction itself is what its slot holds.
  | some q => simp [h.held hopen ho hq, Version.written, Version.visibleTo]
  | none =>
    rcases h.slot_cases hopen with ⟨u, o', q, hu, hq', hslot⟩ | ⟨-, hslot | ⟨hslot, hnone⟩⟩
    · -- The writer is another one, since this transaction has written nothing here.
      have hne : u ≠ t := by
        rintro rfl
        obtain rfl : o = o' := by simpa [ho] using hu
        simp [hq] at hq'
      simp [hslot, Version.written, Version.visibleTo, hne]
    · -- Nobody holds the place, and what is committed there shows, or it is empty.
      simp [hslot, Version.settled, Version.visibleTo]
    · simp [hslot, hnone]

/-- Behind whatever is in a slot lies what was committed. -/
theorem lastCommitted (h : SlotsAgree maps r) (hopen : r.isOpen p.map = true) :
    (slotAt maps p).bind Version.lastCommitted = r.committed p := by
  rcases h.slot_cases hopen with ⟨u, o', q, -, -, hslot⟩ | ⟨-, hslot | ⟨hslot, hnone⟩⟩
  · simp [hslot, Version.written, Version.lastCommitted]
  · simp [hslot, Version.settled, Version.lastCommitted]
  · simp [hslot, hnone]

/-- The owner of a slot, if it is another transaction, is the one that holds its place. -/
theorem owner (h : SlotsAgree maps r) (hexcl : r.Exclusive)
    (hbegun : ∀ u, (r.overlay? u).isSome = true → u ∈ r.begun) (hopen : r.isOpen p.map = true)
    (t : TxnId) :
    ((slotAt maps p).bind fun v => v.owner.filter (· ≠ t)) = r.otherHolder? t p := by
  -- Without another holder the search of the machine finds nobody.
  have hnone : (∀ u, u ≠ t → r.holds u p = false) → r.otherHolder? t p = none := by
    intro hfree
    rw [OverlayMachine.otherHolder?, List.find?_eq_none]
    intro u _
    by_cases hut : u = t <;> simp [hut, hfree]
  rcases h.slot_cases hopen with ⟨u, o, q, ho, hq, hslot⟩ | ⟨hfree, hslot | ⟨hslot, -⟩⟩
  · have hu : r.holds u p = true := OverlayMachine.holds_of_entry? ho hq
    by_cases hut : u = t
    · -- The slot is its own, and exclusivity leaves no room for another holder.
      have hothers : ∀ v, v ≠ t → r.holds v p = false := by
        intro v hvt
        cases hv : r.holds v p with
        | false => rfl
        | true => exact absurd ((hexcl hv hu).trans hut) hvt
      simp [hslot, Version.written, hut, hnone hothers]
    · -- The search finds some holder, and a place has only one.
      have hfound : r.otherHolder? t p = some u := by
        have hmem : u ∈ r.begun := hbegun u (by rw [ho]; rfl)
        obtain ⟨v, hv⟩ : ∃ v, r.otherHolder? t p = some v := by
          rw [← Option.isSome_iff_exists, OverlayMachine.otherHolder?, List.find?_isSome]
          exact ⟨u, hmem, by simp [hut, hu]⟩
        have hvp : r.holds v p = true := by
          have := List.find?_some hv
          simp only [Bool.and_eq_true] at this
          exact this.2
        rw [hv, hexcl hvp hu]
      simp [hslot, Version.written, hut, hfound]
  · simp [hslot, Version.settled, hnone fun u _ => hfree u]
  · simp [hslot, hnone fun u _ => hfree u]

/-- What a write of an unopposed transaction to a place replaces, as its record keeps it. -/
theorem replaced (h : SlotsAgree maps r) (hopen : r.isOpen p.map = true)
    (ho : r.overlay? t = some o) (hfree : ∀ u, u ≠ t → r.holds u p = false) :
    (slotAt maps p).filter (fun old => !old.isTombstone) =
      Overlay.versionUnder t r.committed o p := by
  unfold Overlay.versionUnder
  cases hq : o.entry? p with
  | some q => simp [h.held hopen ho hq, Version.written, Version.isTombstone]
  | none =>
    -- Neither this transaction nor another one has written here, so that the slot is settled.
    have hnobody : ∀ u, r.holds u p = false := by
      intro u
      by_cases hut : u = t
      · simp [hut, OverlayMachine.holds, ho, hq]
      · exact hfree u hut
    rcases h.free hopen hnobody with hslot | ⟨hslot, hnone⟩
    · cases hc : r.committed p <;> simp [hslot, hc, Version.settled, Version.isTombstone]
    · simp [hslot, hnone]

end SlotsAgree

end TxnStore
