import Mathlib.Data.List.Dedup
import TxnStore.Proofs.Transactions.Simulation

/-!
# The count of rows

A map counts its rows as it goes: whoever puts or removes a version adjusts the count by what the
slot held before. Only a delete that leaves a tombstone lowers the count without looking. That is
right as long as the slot holds a row then, and it does, since no transaction deletes what it does
not see.
-/

namespace TxnStore

/-! ## Counting the slots of a map -/

namespace VersionMap

/-- So many keys have a version in their slot that is no tombstone. -/
def HasLive (slots : Value → Option Version) (n : Nat) : Prop :=
  ∃ keys : List Value, keys.Nodup ∧ (∀ key, key ∈ keys ↔ isLive (slots key) = true) ∧
    keys.length = n

/-- The count of a map is the number of its rows. -/
def CountsRows (m : VersionMap) : Prop := ∃ n : Nat, HasLive m.get? n ∧ m.rows = n

variable {slots slots' : Value → Option Version} {m m' : VersionMap} {key : Value} {v : Version}

theorem CountsRows.size (h : m.CountsRows) : HasLive m.get? m.size := by
  obtain ⟨n, hlive, hrows⟩ := h
  rw [VersionMap.size, hrows]
  exact hlive

theorem countsRows_of_no_slot (hslots : ∀ key, m.get? key = none) (hrows : m.rows = 0) :
    m.CountsRows := by
  refine ⟨0, ⟨[], List.nodup_nil, fun key => ?_, rfl⟩, hrows⟩
  rw [hslots]
  simp [isLive]

/-- Where one slot changes, the number changes by what was there and what is there. -/
theorem HasLive.update {n : Nat} (h : HasLive slots n)
    (hother : ∀ j, j ≠ key → slots' j = slots j) :
    ∃ n', HasLive slots' n' ∧
      n' + (isLive (slots key)).toNat = n + (isLive (slots' key)).toNat := by
  obtain ⟨keys, hnodup, hkeys, rfl⟩ := h
  -- The rows at the other keys are the same; those at this key are added by cases.
  have hothers : ∀ j, j ∈ keys.erase key ↔ j ≠ key ∧ isLive (slots' j) = true := by
    intro j
    rw [hnodup.mem_erase_iff]
    constructor
    · intro ⟨hj, hmem⟩
      exact ⟨hj, by rw [hother j hj]; exact (hkeys j).mp hmem⟩
    · intro ⟨hj, hlive⟩
      exact ⟨hj, (hkeys j).mpr (by rw [← hother j hj]; exact hlive)⟩
  -- Counting starts from the other keys, to which the key belonged if its slot was live.
  have hlength : (keys.erase key).length + (isLive (slots key)).toNat = keys.length := by
    cases hbefore : isLive (slots key) with
    | true =>
      have hmem : key ∈ keys := (hkeys key).mpr hbefore
      have hpos := List.length_pos_of_mem hmem
      rw [List.length_erase_of_mem hmem, Bool.toNat_true]
      omega
    | false =>
      have hnot : key ∉ keys := fun hmem => by
        rw [(hkeys key).mp hmem] at hbefore
        cases hbefore
      rw [List.erase_of_not_mem hnot]
      rfl
  cases hafter : isLive (slots' key) with
  | true =>
    refine ⟨(keys.erase key).length + 1, ⟨key :: keys.erase key, ?_, fun j => ?_, rfl⟩, ?_⟩
    · exact List.nodup_cons.mpr ⟨fun hmem => ((hothers key).mp hmem).1 rfl, hnodup.erase key⟩
    · rw [List.mem_cons, hothers]
      by_cases hj : j = key
      · simp [hj, hafter]
      · simp [hj]
    · rw [Bool.toNat_true]
      omega
  | false =>
    refine ⟨(keys.erase key).length, ⟨keys.erase key, hnodup.erase key, fun j => ?_, rfl⟩, hlength⟩
    rw [hothers]
    by_cases hj : j = key
    · simp [hj, hafter]
    · simp [hj]

/-- So many slots are live and no other number. -/
theorem HasLive.unique {n n' : Nat} (h : HasLive slots n) (h' : HasLive slots n') : n = n' := by
  obtain ⟨keys, hnodup, hkeys, rfl⟩ := h
  obtain ⟨keys', hnodup', hkeys', rfl⟩ := h'
  have hperm : keys.Perm keys' := (List.perm_ext_iff_of_nodup hnodup hnodup').mpr fun key =>
    (hkeys key).trans (hkeys' key).symm
  exact hperm.length_eq

/-- A map has finitely many slots, whatever its count says. -/
theorem exists_hasLive (m : VersionMap) : ∃ n, HasLive m.get? n := by
  let keys := m.slots.keys.dedup.filter fun key => isLive (m.get? key)
  refine ⟨keys.length, keys, m.slots.keys.nodup_dedup.filter _, fun key => ?_, rfl⟩
  rw [List.mem_filter, List.mem_dedup]
  refine ⟨And.right, fun hlive => ⟨?_, hlive⟩⟩
  -- An empty slot is not live.
  apply Table.mem_keys_of_contains
  cases hslot : m.get? key with
  | none =>
    rw [hslot] at hlive
    cases hlive
  | some v => exact Option.isSome_iff_exists.mpr ⟨v, hslot⟩

/-- Putting a version that is no tombstone changes the count like the number of rows. -/
theorem rows_put (m : VersionMap) (key : Value) (hv : v.isTombstone = false) :
    (m.put key v).2.rows + (isLive (m.get? key)).toNat =
      m.rows + (isLive ((m.put key v).2.get? key)).toNat := by
  have hslot : isLive ((m.put key v).2.get? key) = true := by
    rw [get?_put, if_pos rfl]
    simp [isLive, hv]
  rw [hslot]
  cases hbefore : isLive (m.get? key) <;> simp [VersionMap.put, hbefore, hv]

/-- Emptying a slot changes the count like the number of rows. -/
theorem rows_remove (m : VersionMap) (key : Value) :
    (m.remove key).2.rows + (isLive (m.get? key)).toNat =
      m.rows + (isLive ((m.remove key).2.get? key)).toNat := by
  have hslot : isLive ((m.remove key).2.get? key) = false := by
    rw [get?_remove, if_pos rfl]
    rfl
  rw [hslot]
  cases hbefore : isLive (m.get? key) <;> simp [VersionMap.remove, hbefore]

namespace CountsRows

/-- A count that changes like the number of rows is right. -/
theorem update (h : m.CountsRows) (hother : ∀ j, j ≠ key → m'.get? j = m.get? j)
    (hrows : m'.rows + (isLive (m.get? key)).toNat = m.rows + (isLive (m'.get? key)).toNat) :
    m'.CountsRows := by
  obtain ⟨n, hlive, hcount⟩ := h
  obtain ⟨n', hlive', hcount'⟩ := hlive.update hother
  exact ⟨n', hlive', by omega⟩

theorem put (h : m.CountsRows) (key : Value) (hv : v.isTombstone = false) :
    (m.put key v).2.CountsRows :=
  h.update (fun j hj => by rw [get?_put, if_neg hj]) (rows_put m key hv)

theorem remove (h : m.CountsRows) (key : Value) : (m.remove key).2.CountsRows :=
  h.update (fun j hj => by rw [get?_remove, if_neg hj]) (rows_remove m key)

/-- A tombstone may be put over a row if the count is lowered. -/
theorem bury (h : m.CountsRows) (hlive : isLive (m.get? key) = true) (hv : v.isTombstone = true) :
    (m.dropRow.put key v).2.CountsRows := by
  have hslot : isLive ((m.dropRow.put key v).2.get? key) = false := by
    rw [get?_put, if_pos rfl]
    simp [isLive, hv]
  refine h.update (fun j hj => by rw [get?_put, if_neg hj, get?_dropRow]) ?_
  rw [hslot, hlive]
  simp [VersionMap.put, dropRow, hv]

/-- Making a write final keeps the count, if a delete finds a row. -/
theorem commitTo (h : m.CountsRows) (key : Value) (v : Version) (keep : Bool)
    (hlive : v.payload = none → isLive (m.get? key) = true) :
    (UndoRecord.commitTo m key v.commit keep).CountsRows := by
  unfold UndoRecord.commitTo
  -- A row that is committed stays one; a delete leaves a tombstone or nothing.
  cases hpayload : v.payload with
  | some q =>
    rw [if_pos (by simp [Version.commit, hpayload])]
    exact h.put key (by simp [Version.isTombstone, Version.commit, hpayload])
  | none =>
    rw [if_neg (by simp [Version.commit, hpayload])]
    split
    · exact h.bury (hlive hpayload) (by simp [Version.isTombstone, Version.commit, hpayload])
    · exact h.remove key

/-- Undoing a write keeps the count, if it brings back no tombstone. -/
theorem revertIn (h : m.CountsRows) {r : UndoRecord}
    (hold : ∀ old, r.old? = some old → old.isTombstone = false) : (r.revertIn m).CountsRows := by
  unfold UndoRecord.revertIn
  cases hr : r.old? with
  | none => exact h.remove r.key
  | some old => exact h.put r.key (hold old hr)

end CountsRows

end VersionMap

/-! ## Counting in all maps -/

/-- Every map counts its rows. -/
def AllCounted (maps : Table String VersionMap) : Prop :=
  ∀ ⦃name m⦄, maps.get? name = some m → m.CountsRows

namespace AllCounted

variable {maps : Table String VersionMap} {e : Engine} {r : UndoRecord}

theorem insert (h : AllCounted maps) (name : String) {m : VersionMap} (hm : m.CountsRows) :
    AllCounted (maps.insert name m) := by
  intro other m' hm'
  rw [Table.get?_insert] at hm'
  split at hm'
  · cases hm'
    exact hm
  · exact h hm'

theorem erase (h : AllCounted maps) (name : String) : AllCounted (maps.erase name) := by
  intro other m' hm'
  rw [Table.get?_erase] at hm'
  split at hm'
  · cases hm'
  · exact h hm'

theorem rollback (h : AllCounted e.maps)
    (hold : ∀ old, r.old? = some old → old.isTombstone = false) :
    AllCounted (r.rollback e).2.maps := by
  unfold UndoRecord.rollback
  split
  · exact h
  · cases hm : e.maps.get? r.map with
    | none => exact h
    | some m => exact h.insert r.map ((h hm).revertIn hold)

theorem revertAll {rs : List UndoRecord} (h : AllCounted e.maps)
    (hold : ∀ r ∈ rs, ∀ old, r.old? = some old → old.isTombstone = false) :
    AllCounted (UndoLog.revertAll rs e).2.maps := by
  induction rs generalizing e with
  | nil => exact h
  | cons r rest ih =>
    apply ih
    · exact h.rollback (hold r List.mem_cons_self)
    · intro r' hr'
      exact hold r' (List.mem_cons_of_mem _ hr')

theorem commit (h : AllCounted e.maps)
    (hlive : r.written.payload = none → e.maps.contains r.map = true →
      VersionMap.isLive (slotAt e.maps r.place) = true) :
    AllCounted (r.commit e).2.maps := by
  unfold UndoRecord.commit
  split
  · exact h
  · -- A finished record does nothing, and a map that is not open is not written to.
    cases hm : e.maps.get? r.map with
    | none => exact h
    | some m =>
      apply h.insert r.map
      apply (h hm).commitTo
      -- The delete had a row before it, since nothing else lets it be written.
      intro hpayload
      have hslot := hlive hpayload (by rw [Table.contains, hm]; rfl)
      rwa [slotAt, show e.maps.get? r.place.map = some m from hm, Option.bind_some] at hslot

end AllCounted

/-! ## Deletes of what is seen -/

/-- A write that is no delete, or a delete of something that its transaction saw. -/
def UndoRecord.DeletesSeen (t : TxnId) (r : UndoRecord) : Prop :=
  r.written.payload = none → (r.old?.bind fun v => v.visibleTo t).isSome = true

namespace Overlay

variable {t : TxnId} {committed : Place → Option Value} {o : Overlay}

/-- A delete that is made of what is seen does not stand right over another delete. -/
theorem ne_of_deletesSeen {w : Place × Option Value} {older : Overlay}
    (h : (recordOver t committed older w).DeletesSeen t) (hdelete : w.2 = none) :
    older.entry? w.1 ≠ some none := by
  intro hentry
  have hseen := h hdelete
  rw [old?_recordOver, versionUnder, hentry] at hseen
  simp [Version.written, Version.visibleTo] at hseen

end Overlay

/-- A slot that shows a payload holds a row. -/
theorem IsSettled.isLive {slot : Option Version} {q : Value} (h : IsSettled slot (some q)) :
    VersionMap.isLive slot = true := by
  rcases h with rfl | ⟨-, hnone⟩
  · rfl
  · cases hnone

/-- Making the writes of an overlay final keeps the counts, if all its deletes are made of what is
seen and its places hold rows before. -/
theorem AllCounted.commit_records {e : Engine} (h : AllCounted e.maps) {t : TxnId}
    {committed : Place → Option Value} {o : Overlay}
    (hseen : ∀ r ∈ Overlay.records t committed o, r.DeletesSeen t)
    (hlive : ∀ p, (o.entry? p).isSome = true → e.maps.contains p.map = true →
      VersionMap.isLive (slotAt e.maps p) = true) :
    AllCounted (UndoLog.commit (Overlay.records t committed o).reverse e).2.maps := by
  -- Records become final from the oldest to the newest, so the induction is on the older writes.
  induction o with
  | nil => exact h
  | cons w older ih =>
    have holder : AllCounted
        (UndoLog.commit (Overlay.records t committed older).reverse e).2.maps := by
      apply ih
      · intro r hr
        exact hseen r (List.mem_cons_of_mem _ hr)
      · intro p hp
        apply hlive p
        rw [Overlay.entry?_cons]
        split
        · rfl
        · exact hp
    obtain ⟨hopen, hslots⟩ := slotAt_commit_records t committed older e
    simp only [Overlay.records, List.reverse_cons, UndoLog.commit_concat]
    apply holder.commit
    intro hdelete hmap
    have hmap' : e.maps.contains w.1.map = true := (hopen w.1.map).symm.trans hmap
    have hslot := hslots w.1 hmap'
    -- The slot shows the write before this one, or it is still as the transaction has left it.
    cases hentry : Overlay.entry? older w.1 with
    | none =>
      rw [hentry] at hslot
      show VersionMap.isLive (slotAt _ w.1) = true
      rw [hslot]
      exact hlive w.1 (by simp [Overlay.entry?_cons]) hmap'
    | some q =>
      cases q with
      | none =>
        exact absurd hentry (Overlay.ne_of_deletesSeen (hseen _ List.mem_cons_self) hdelete)
      | some q =>
        rw [hentry] at hslot
        exact hslot.isLive

end TxnStore
