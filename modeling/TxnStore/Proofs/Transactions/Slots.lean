import TxnStore.Proofs.Transactions.Overlay

/-!
# Slots and overlays

How the slots of an engine's maps stand for a machine of overlays, and how they come to stand for
another one when writes are undone or made final. A place that an unfinished transaction holds is
occupied by a version of that transaction, which carries the payload of its newest write and, behind
it, the committed payload. Any other place shows the committed payload.

A transaction's log is determined by its overlay: the record of each write carries the version that
the older writes of the same transaction left at the place, or else the committed one. This is what
lets an undo bring back the version before, however often the place was written.
-/

namespace TxnStore

open TxnStore.Action

/-! ## Overlays -/

namespace Overlay

@[simp] theorem entry?_nil (p : Place) : Overlay.entry? [] p = none := rfl

theorem entry?_cons (w : Place × Option Value) (o : Overlay) (p : Place) :
    Overlay.entry? (w :: o) p = if p = w.1 then some w.2 else o.entry? p := by
  unfold entry?
  rw [List.lookup_cons]
  by_cases h : p = w.1
  · simp [h]
  · rw [if_neg h, beq_eq_false_iff_ne.mpr h]

/-- What an older stage of an overlay has an entry for, the overlay has an entry for. -/
theorem isSome_entry?_of_drop {o : Overlay} {n : Nat} {p : Place}
    (h : (Overlay.entry? (o.drop n) p).isSome = true) : (o.entry? p).isSome = true := by
  induction o generalizing n with
  | nil => simp at h
  | cons w rest ih =>
    -- Where nothing is dropped the entry is at hand; else it is that of the newest write, or older.
    cases n with
    | zero => exact h
    | succ n =>
      rw [entry?_cons]
      split
      · rfl
      · exact ih h

end Overlay

namespace OverlayMachine

/-- No place is held by two transactions. -/
def Exclusive (r : OverlayMachine) : Prop :=
  ∀ ⦃t u : TxnId⦄ ⦃p : Place⦄, r.holds t p = true → r.holds u p = true → t = u

theorem holds_iff {r : OverlayMachine} {t : TxnId} {p : Place} :
    r.holds t p = true ↔ ∃ o, r.overlay? t = some o ∧ (o.entry? p).isSome = true := by
  simp [holds, Option.any_eq_true]

theorem holds_of_entry? {r : OverlayMachine} {t : TxnId} {p : Place} {o : Overlay}
    {q : Option Value} (ho : r.overlay? t = some o) (hq : o.entry? p = some q) :
    r.holds t p = true :=
  holds_iff.mpr ⟨o, ho, by rw [hq]; rfl⟩

theorem holds_setOverlay (r : OverlayMachine) (t u : TxnId) (o : Option Overlay) (p : Place) :
    (r.setOverlay t o).holds u p =
      if u = t then o.any fun o => (o.entry? p).isSome else r.holds u p := by
  unfold holds setOverlay
  by_cases h : u = t <;> simp [h]

theorem setOverlay_self {r : OverlayMachine} {t : TxnId} {o : Overlay}
    (h : r.overlay? t = some o) : r.setOverlay t (some o) = r := by
  have hsame : (fun u => if u = t then some o else r.overlay? u) = r.overlay? := by
    funext u
    split
    · next hu => rw [hu, h]
    · rfl
  simp [setOverlay, hsame]

theorem setOverlay_setOverlay (r : OverlayMachine) (t : TxnId) (o o' : Option Overlay) :
    (r.setOverlay t o).setOverlay t o' = r.setOverlay t o' := by
  simp only [setOverlay]
  congr 1
  funext u
  split <;> rfl

/-- A transaction that gives places up, and takes none, leaves the places exclusive. -/
theorem Exclusive.shrink {r : OverlayMachine} (h : r.Exclusive) {t : TxnId} {o : Option Overlay}
    (hsub : ∀ p, (o.any fun o => (o.entry? p).isSome) = true → r.holds t p = true) :
    (r.setOverlay t o).Exclusive := by
  intro u v p hu hv
  -- Who holds a place afterwards held it before.
  have hkeeps : ∀ w, (r.setOverlay t o).holds w p = true → r.holds w p = true := by
    intro w hw
    rw [holds_setOverlay] at hw
    split at hw
    · next hwt => exact hwt ▸ hsub p hw
    · exact hw
  exact h (hkeeps u hu) (hkeeps v hv)

/-- A transaction that goes back to an older stage leaves the places exclusive. -/
theorem Exclusive.dropped {r : OverlayMachine} (h : r.Exclusive) {t : TxnId} {o : Overlay}
    (ho : r.overlay? t = some o) (n : Nat) : (r.setOverlay t (some (o.drop n))).Exclusive := by
  apply h.shrink
  intro p hp
  exact holds_iff.mpr ⟨o, ho, Overlay.isSome_entry?_of_drop hp⟩

/-- A transaction that ends leaves the places exclusive. -/
theorem Exclusive.ended {r : OverlayMachine} (h : r.Exclusive) (t : TxnId) :
    (r.setOverlay t none).Exclusive :=
  h.shrink fun _ hp => absurd hp (by simp)

end OverlayMachine

/-! ## The log of an overlay -/

namespace Overlay

/-- The version at a place under the newest write: that of an older write of the same transaction,
or the committed one, if it is not a delete. -/
def versionUnder (t : TxnId) (committed : Place → Option Value) (older : Overlay) (p : Place) :
    Option Version :=
  match older.entry? p with
  | some q => some (.written t q (committed p))
  | none => (committed p).map fun v => .settled (some v)

/-- The record of a write on top of older ones. -/
def recordOver (t : TxnId) (committed : Place → Option Value) (older : Overlay)
    (w : Place × Option Value) : UndoRecord :=
  .ofWrite w.1.map w.1.key (versionUnder t committed older w.1)
    (.written t w.2 (committed w.1))

/-- The records of a transaction with a given overlay, the newest first. -/
def records (t : TxnId) (committed : Place → Option Value) : Overlay → List UndoRecord
  | [] => []
  | w :: older => recordOver t committed older w :: records t committed older

variable {t : TxnId} {committed committed' : Place → Option Value}

@[simp] theorem length_records (o : Overlay) : (records t committed o).length = o.length := by
  induction o with
  | nil => rfl
  | cons w older ih => simp [records, ih]

theorem records_drop (o : Overlay) (n : Nat) :
    records t committed (o.drop n) = (records t committed o).drop n := by
  induction o generalizing n with
  | nil => simp [records]
  | cons w older ih =>
    cases n with
    | zero => rfl
    | succ n => exact ih n

/-- The records depend on the committed payloads of the places written only. -/
theorem records_congr {o : Overlay}
    (h : ∀ p, (o.entry? p).isSome = true → committed p = committed' p) :
    records t committed o = records t committed' o := by
  induction o with
  | nil => rfl
  | cons w older ih =>
    -- The newest write reads its own place only, the older ones theirs.
    have hw : committed w.1 = committed' w.1 := h w.1 (by simp [entry?_cons])
    have hunder : versionUnder t committed older w.1 = versionUnder t committed' older w.1 := by
      unfold versionUnder
      rw [hw]
    have holder : records t committed older = records t committed' older := by
      apply ih
      intro p hp
      apply h
      rw [entry?_cons]
      split
      · rfl
      · exact hp
    simp only [records, recordOver, hunder, hw, holder]

@[simp] theorem old?_recordOver (older : Overlay) (w : Place × Option Value) :
    (recordOver t committed older w).old? = versionUnder t committed older w.1 := by
  unfold recordOver UndoRecord.ofWrite UndoRecord.old?
  cases versionUnder t committed older w.1 with
  | none => rfl
  | some v => cases hq : w.2 <;> simp [Version.written]

@[simp] theorem isFinished_recordOver (older : Overlay) (w : Place × Option Value) :
    (recordOver t committed older w).isFinished = false := rfl

end Overlay

/-! ## Slots -/

def slotAt (maps : Table String VersionMap) (p : Place) : Option Version :=
  (maps.get? p.map).bind fun m => m.get? p.key

/-- A slot that shows a committed payload; the slot of a delete may be empty. -/
def IsSettled (slot : Option Version) (payload : Option Value) : Prop :=
  slot = some (.settled payload) ∨ (slot = none ∧ payload = none)

/-- Changing one slot of an open map changes what is at one place. -/
theorem slotAt_insert {maps : Table String VersionMap} {p : Place} {m m' : VersionMap}
    {v : Option Version} (hm : maps.get? p.map = some m)
    (hm' : ∀ j, m'.get? j = if j = p.key then v else m.get? j) (p' : Place) :
    slotAt (maps.insert p.map m') p' = if p' = p then v else slotAt maps p' := by
  obtain ⟨name, key⟩ := p
  obtain ⟨name', key'⟩ := p'
  by_cases hname : name' = name
  · subst hname
    by_cases hkey : key' = key <;> simp_all [slotAt]
  · simp [slotAt, Table.get?_insert, hname]

theorem contains_insert_of_get? {maps : Table String VersionMap} {name : String} {m m' : VersionMap}
    (hm : maps.get? name = some m) (other : String) :
    (maps.insert name m').contains other = maps.contains other := by
  rw [Table.contains_insert]
  by_cases h : other = name <;> simp [h, Table.contains, hm]

/-- The slots of maps stand for a machine of overlays. -/
structure SlotsAgree (maps : Table String VersionMap) (r : OverlayMachine) : Prop where
  isOpen : ∀ name, r.isOpen name = maps.contains name
  /-- What is written is in its slot, over the committed payload. -/
  held : ∀ {t o p q}, r.isOpen p.map = true → r.overlay? t = some o → o.entry? p = some q →
    slotAt maps p = some (.written t q (r.committed p))
  /-- What nobody has written is committed. -/
  free : ∀ {p}, r.isOpen p.map = true → (∀ t, r.holds t p = false) →
    IsSettled (slotAt maps p) (r.committed p)

/-! ## Undoing writes -/

/-- The slots after a write to a place of an open map was undone. -/
theorem slotAt_rollback {e : Engine} {r : UndoRecord} {m : VersionMap} (hr : r.isFinished = false)
    (hm : e.maps.get? r.map = some m) (p : Place) :
    slotAt (r.rollback e).2.maps p =
      if p = ⟨r.map, r.key⟩ then r.old? else slotAt e.maps p := by
  have hmaps : (r.rollback e).2.maps = e.maps.insert r.map (r.revertIn m) := by
    simp [UndoRecord.rollback, hr, hm]
  -- Reverting puts back what the record has kept, or removes the key if there was nothing.
  have hslot : ∀ j, (r.revertIn m).get? j = if j = r.key then r.old? else m.get? j := by
    intro j
    unfold UndoRecord.revertIn
    cases r.old? with
    | none => exact m.get?_remove r.key j
    | some v => exact m.get?_put r.key j v
  rw [hmaps]
  exact slotAt_insert (p := ⟨r.map, r.key⟩) hm hslot p

theorem contains_rollback (r : UndoRecord) (e : Engine) (name : String) :
    (r.rollback e).2.maps.contains name = e.maps.contains name := by
  unfold UndoRecord.rollback
  split
  · rfl
  · cases hm : e.maps.get? r.map with
    | none => rfl
    | some m => exact contains_insert_of_get? hm name

namespace SlotsAgree

/-- Undoing the newest write of a transaction brings back the stage before. -/
theorem rollback {e : Engine} {r : OverlayMachine} {t : TxnId} {w : Place × Option Value}
    {older : Overlay} (h : SlotsAgree e.maps r) (hexcl : r.Exclusive)
    (ho : r.overlay? t = some (w :: older)) :
    SlotsAgree ((Overlay.recordOver t r.committed older w).rollback e).2.maps
      (r.setOverlay t (some older)) := by
  -- The transaction holds the place of the write that is undone, so that nobody else can.
  have hw : r.holds t w.1 = true :=
    OverlayMachine.holds_of_entry? ho (by rw [Overlay.entry?_cons, if_pos rfl])
  have hother : ∀ {p}, p ≠ w.1 → (Overlay.entry? (w :: older) p) = older.entry? p := by
    intro p hp
    rw [Overlay.entry?_cons, if_neg hp]
  -- An open map's slot holds what the record says was there; all other slots are as before.
  have hslot : ∀ {p : Place}, r.isOpen p.map = true →
      slotAt ((Overlay.recordOver t r.committed older w).rollback e).2.maps p =
        if p = w.1 then Overlay.versionUnder t r.committed older w.1 else slotAt e.maps p := by
    intro p hp
    cases hm : e.maps.get? w.1.map with
    | none =>
      -- A map that is not open any more has no slots, and the record is passed over.
      have hne : p ≠ w.1 := by
        rintro rfl
        simp [h.isOpen, Table.contains, hm] at hp
      have hskip : ((Overlay.recordOver t r.committed older w).rollback e).2.maps = e.maps := by
        have hm' : e.maps.get? (Overlay.recordOver t r.committed older w).map = none := hm
        simp only [UndoRecord.rollback, hm', Overlay.isFinished_recordOver]
        rfl
      rw [hskip, if_neg hne]
    | some m =>
      have hback := slotAt_rollback (r := Overlay.recordOver t r.committed older w) rfl hm p
      rwa [Overlay.old?_recordOver] at hback
  refine ⟨fun name => ?_, ?_, ?_⟩
  · -- Undoing opens and closes no map.
    rw [contains_rollback]
    exact h.isOpen name
  · -- Held places: that of the undone write goes back to the older writes of the same transaction;
    -- no other transaction can hold it.
    intro u o p q hp hu hq
    rw [hslot hp]
    by_cases hut : u = t
    · subst hut
      obtain rfl : older = o := by simpa [OverlayMachine.setOverlay] using hu
      by_cases hpw : p = w.1
      · subst hpw
        rw [if_pos rfl, Overlay.versionUnder, hq]
        -- An older write of the transaction to the same place shows again.
        rfl
      · rw [if_neg hpw]
        exact h.held hp ho ((hother hpw).trans hq)
    · have hu' : r.overlay? u = some o := by simpa [OverlayMachine.setOverlay, hut] using hu
      -- Another transaction's place is not the one that is undone, by exclusivity.
      have hpw : p ≠ w.1 := by
        rintro rfl
        exact hut (hexcl (OverlayMachine.holds_of_entry? hu' hq) hw)
      rw [if_neg hpw]
      exact h.held hp hu' hq
  · -- Free places: nothing older was written there, so that the record brings back what is
    -- committed.
    intro p hp hfree
    rw [hslot hp]
    have holder : older.entry? p = none := by
      have := hfree t
      simpa [OverlayMachine.holds_setOverlay] using this
    by_cases hpw : p = w.1
    · subst hpw
      rw [if_pos rfl, Overlay.versionUnder, holder]
      show IsSettled _ (r.committed w.1)
      cases r.committed w.1 with
      | none => exact .inr ⟨rfl, rfl⟩
      | some v => exact .inl rfl
    · rw [if_neg hpw]
      apply h.free hp
      -- At other places the undone write made no difference to who holds them.
      intro u
      by_cases hut : u = t
      · subst hut
        simp [OverlayMachine.holds, ho, hother hpw, holder]
      · have := hfree u
        rwa [OverlayMachine.holds_setOverlay, if_neg hut] at this

/-- Undoing the newest writes of a transaction brings back an older stage of its overlay. -/
theorem revertAll {n : Nat} {e : Engine} {r : OverlayMachine} {t : TxnId} {o : Overlay}
    (h : SlotsAgree e.maps r) (hexcl : r.Exclusive) (ho : r.overlay? t = some o) :
    SlotsAgree (UndoLog.revertAll ((Overlay.records t r.committed o).take n) e).2.maps
      (r.setOverlay t (some (o.drop n))) := by
  -- Engine, machine and overlay vary, since each undone write leaves an older stage of all three.
  induction n generalizing e r o with
  | zero =>
    rw [List.drop_zero, OverlayMachine.setOverlay_self ho]
    exact h
  | succ n ih =>
    cases o with
    | nil =>
      rw [List.drop_nil, OverlayMachine.setOverlay_self ho]
      exact h
    | cons w older =>
      have hnext := ih (h.rollback hexcl ho) (hexcl.dropped ho 1) (o := older)
        -- Undoing the newest write drops it from the overlay, and the rest is undone from there.
        (by simp [OverlayMachine.setOverlay])
      rw [OverlayMachine.setOverlay_setOverlay] at hnext
      exact hnext

end SlotsAgree

/-! ## Making writes final -/

theorem contains_commit (r : UndoRecord) (e : Engine) (name : String) :
    (r.commit e).2.maps.contains name = e.maps.contains name := by
  unfold UndoRecord.commit
  split
  · rfl
  · cases hm : e.maps.get? r.map with
    | none => rfl
    | some m => exact contains_insert_of_get? hm name

/-- A slot to which a version was committed shows its payload. -/
theorem isSettled_commitTo (m : VersionMap) (key : Value) (v : Version) (keep : Bool) :
    IsSettled ((UndoRecord.commitTo m key v.commit keep).get? key) v.payload := by
  obtain ⟨payload, owner, committed, previous⟩ := v
  cases payload with
  | some q => exact .inl (by simp [UndoRecord.commitTo, Version.commit, VersionMap.get?_put,
      Version.settled])
  | none =>
    -- A delete leaves a tombstone while someone has to read the same again, else an empty slot.
    cases keep with
    | true => exact .inl (by simp [UndoRecord.commitTo, Version.commit, VersionMap.get?_put,
        Version.settled])
    | false => exact .inr (by simp [UndoRecord.commitTo, Version.commit, VersionMap.get?_remove])

theorem get?_commitTo_ne (m : VersionMap) {key j : Value} (hj : j ≠ key) (v : Version)
    (keep : Bool) : (UndoRecord.commitTo m key v keep).get? j = m.get? j := by
  unfold UndoRecord.commitTo
  split
  · rw [VersionMap.get?_put, if_neg hj]
  · split
    · rw [VersionMap.get?_put, if_neg hj, VersionMap.get?_dropRow]
    · rw [VersionMap.get?_remove, if_neg hj]

/-- The map of a record once its write is made final. -/
theorem maps_commit {e : Engine} {r : UndoRecord} {m : VersionMap} (hr : r.isFinished = false)
    (hm : e.maps.get? r.map = some m) :
    (r.commit e).2.maps = e.maps.insert r.map
      (UndoRecord.commitTo m r.key r.written.commit e.hasRepeatableReaders) := by
  simp [UndoRecord.commit, hr, hm]

/-- A write to an open map that was made final shows its payload. -/
theorem isSettled_slotAt_commit {e : Engine} {r : UndoRecord} (hr : r.isFinished = false)
    (hopen : e.maps.contains r.map = true) :
    IsSettled (slotAt (r.commit e).2.maps ⟨r.map, r.key⟩) r.written.payload := by
  obtain ⟨m, hm⟩ := Option.isSome_iff_exists.mp hopen
  rw [maps_commit hr hm]
  simpa [slotAt] using isSettled_commitTo m r.key r.written e.hasRepeatableReaders

/-- Making a write final leaves the other places as they were. -/
theorem slotAt_commit_ne {e : Engine} {r : UndoRecord} (hr : r.isFinished = false) {p : Place}
    (hp : p ≠ ⟨r.map, r.key⟩) : slotAt (r.commit e).2.maps p = slotAt e.maps p := by
  cases hm : e.maps.get? r.map with
  | none =>
    -- There is no map to write to, and the record is passed over.
    have hskip : (r.commit e).2.maps = e.maps := by
      simp only [UndoRecord.commit, hr, hm]
      rfl
    rw [hskip]
  | some m =>
    -- Within the map only the key of the record is touched.
    have hothers : ∀ j,
        (UndoRecord.commitTo m r.key r.written.commit e.hasRepeatableReaders).get? j =
        if j = r.key then
          (UndoRecord.commitTo m r.key r.written.commit e.hasRepeatableReaders).get? r.key
        else m.get? j := by
      intro j
      by_cases hj : j = r.key
      · rw [hj, if_pos rfl]
      · rw [if_neg hj, get?_commitTo_ne m hj]
    have hslot := slotAt_insert (p := ⟨r.map, r.key⟩) hm hothers p
    rw [maps_commit hr hm, hslot, if_neg hp]

theorem UndoLog.commit_concat (log : UndoLog) (r : UndoRecord) (e : Engine) :
    (UndoLog.commit (log ++ [r]) e).2 = (r.commit (UndoLog.commit log e).2).2 := by
  induction log generalizing e with
  | nil => rfl
  | cons s rest ih => exact ih (s.commit e).2

/-- Making the writes of an overlay final settles each place of an open map at its newest write, and
leaves all other places as they were. -/
theorem slotAt_commit_records (t : TxnId) (committed : Place → Option Value) (o : Overlay)
    (e : Engine) :
    (∀ name, (UndoLog.commit (Overlay.records t committed o).reverse e).2.maps.contains name =
        e.maps.contains name) ∧
      ∀ p, e.maps.contains p.map = true →
        match o.entry? p with
        | some q =>
          IsSettled (slotAt (UndoLog.commit (Overlay.records t committed o).reverse e).2.maps p) q
        | none =>
          slotAt (UndoLog.commit (Overlay.records t committed o).reverse e).2.maps p =
            slotAt e.maps p := by
  -- The oldest write is made final first, and so the newest write to a place has the last word.
  induction o with
  | nil => exact ⟨fun _ => rfl, fun _ _ => rfl⟩
  | cons w older ih =>
    obtain ⟨hopen, hslots⟩ := ih
    simp only [Overlay.records, List.reverse_cons, UndoLog.commit_concat]
    constructor
    · intro name
      rw [contains_commit]
      exact hopen name
    · intro p hp
      rw [Overlay.entry?_cons]
      by_cases hpw : p = w.1
      · subst hpw
        rw [if_pos rfl]
        exact isSettled_slotAt_commit (r := Overlay.recordOver t committed older w) rfl
          ((hopen w.1.map).trans hp)
      · rw [if_neg hpw, slotAt_commit_ne (r := Overlay.recordOver t committed older w) rfl hpw]
        exact hslots p hp

end TxnStore
