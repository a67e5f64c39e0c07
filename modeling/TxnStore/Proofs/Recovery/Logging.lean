import TxnStore.Proofs.Log.Opening
import TxnStore.Proofs.Recovery.Footing
import TxnStore.Proofs.Transactions.Steps
import TxnStore.Proofs.Values.Records

/-!
# What a commit logs

A commit logs the records of its writes to open maps, the oldest first, in one frame. Putting these
records one after the other over what was committed before gives what is committed after it, so that
the records of all frames together give what is committed now.
-/

namespace TxnStore

open TxnStore.Action

/-! ## Records in effect -/

namespace RedoRecord

/-- The key of a map that the record is about. -/
def place (r : RedoRecord) : Place := ⟨r.map, r.key⟩

/-- The committed payloads once a record has taken effect. -/
def applyTo (committed : Place → Option Value) (r : RedoRecord) : Place → Option Value :=
  fun p => if p = r.place then r.payload else committed p

/-- The committed payloads once records have taken effect one after the other. -/
def applyAll (committed : Place → Option Value) (rs : List RedoRecord) : Place → Option Value :=
  rs.foldl applyTo committed

theorem applyAll_append (committed : Place → Option Value) (rs rs' : List RedoRecord) :
    applyAll committed (rs ++ rs') = applyAll (applyAll committed rs) rs' :=
  List.foldl_append

theorem applyAll_of_forall_ne {committed : Place → Option Value} {rs : List RedoRecord} {p : Place}
    (h : ∀ r ∈ rs, r.place ≠ p) : applyAll committed rs p = committed p := by
  induction rs generalizing committed with
  | nil => rfl
  | cons r rest ih =>
    have hne : p ≠ r.place := Ne.symm (h r List.mem_cons_self)
    have hrest : applyAll (applyTo committed r) rest p = applyTo committed r p :=
      ih fun r' hr' => h r' (List.mem_cons_of_mem _ hr')
    rw [applyTo, if_neg hne] at hrest
    exact hrest

/-- Where a record takes effect, it does not matter what was committed before. -/
theorem applyAll_of_exists {committed committed' : Place → Option Value} {rs : List RedoRecord}
    {p : Place} (h : ∃ r ∈ rs, r.place = p) :
    applyAll committed rs p = applyAll committed' rs p := by
  induction rs generalizing committed committed' with
  -- Some record is about the place, so that the list is not empty.
  | nil =>
    obtain ⟨r, hr, -⟩ := h
    cases hr
  | cons r rest ih =>
    show applyAll (applyTo committed r) rest p = applyAll (applyTo committed' r) rest p
    by_cases hrest : ∃ r' ∈ rest, r'.place = p
    · exact ih hrest
    · -- No later record is about the place, so that the first one decides.
      have hnone : ∀ r' ∈ rest, r'.place ≠ p := fun r' hr' hp => hrest ⟨r', hr', hp⟩
      obtain ⟨r', hr', hp⟩ := h
      have hfirst : p = r.place := by
        rcases List.mem_cons.mp hr' with rfl | hlater
        · exact hp.symm
        · exact absurd hp (hnone r' hlater)
      rw [applyAll_of_forall_ne hnone, applyAll_of_forall_ne hnone, applyTo, applyTo,
        if_pos hfirst, if_pos hfirst]

end RedoRecord

/-- The redo records of the pending writes to open maps. -/
def UndoLog.toRedo (isOpen : String → Bool) (log : UndoLog) : List RedoRecord :=
  (log.filter fun r => !r.isFinished && isOpen r.map).map UndoRecord.toRedo

namespace Overlay

/-- The records of an overlay show, at the places of open maps, what the overlay shows. -/
theorem applyAll_toRedo (t : TxnId) (committed base : Place → Option Value)
    (isOpen : String → Bool) (o : Overlay) {p : Place} (hopen : isOpen p.map = true) :
    RedoRecord.applyAll base (UndoLog.toRedo isOpen (records t committed o).reverse) p =
      (o.entry? p).getD (base p) := by
  -- The newest record takes effect last, over what the older ones leave.
  induction o with
  | nil => rfl
  | cons w older ih =>
    have hpending : (recordOver t committed older w).isFinished = false := rfl
    have hmap : (recordOver t committed older w).map = w.1.map := rfl
    rw [records, List.reverse_cons, UndoLog.toRedo, List.filter_append, List.map_append,
      RedoRecord.applyAll_append, entry?_cons]
    cases hw : isOpen w.1.map with
    | true =>
      have hlast : [recordOver t committed older w].filter
          (fun r => !r.isFinished && isOpen r.map) = [recordOver t committed older w] := by
        simp [hpending, hmap, hw]
      rw [hlast]
      -- The newest write decides at its own place.
      by_cases hp : p = w.1
      · rw [if_pos hp]
        exact if_pos hp
      · rw [if_neg hp, ← ih]
        exact if_neg hp
    | false =>
      have hlast : [recordOver t committed older w].filter
          (fun r => !r.isFinished && isOpen r.map) = [] := by
        simp [hmap, hw]
      -- The record of a map that is closed is left out, and the place is not in that map.
      have hp : p ≠ w.1 := by
        rintro rfl
        simp [hopen] at hw
      rw [hlast, if_neg hp]
      exact ih

end Overlay

/-- An overlay that is laid down is put into effect by its records, at the places of open maps. -/
theorem OverlayMachine.committed_settle {r : OverlayMachine} {base : Place → Option Value}
    {p : Place} (t : TxnId) (o : Overlay) (hopen : r.isOpen p.map = true)
    (hbase : r.committed p = base p) :
    (r.settle t o).committed p = RedoRecord.applyAll base
      (UndoLog.toRedo r.isOpen (Overlay.records t r.committed o).reverse) p := by
  have hfinal : (r.settle t o).committed p = r.see o p := if_pos hopen
  rw [hfinal, OverlayMachine.see, hbase,
    Overlay.applyAll_toRedo t r.committed base r.isOpen o hopen]

/-! ## Writing the records -/

namespace UndoLog

variable {codecs : CodecBook} {e : Engine}

/-- The records of the writes are the bytes that are written. -/
theorem eq_of_runOn_writeRedo {log : UndoLog} {bs bs' : List UInt8} {n : Nat} {e' : Engine}
    (hcodecs : ∀ name c, codecsOf e.maps name = some c → codecs name = c)
    (h : (writeRedo log).runOn (bs, e) = (.ok n, bs', e')) :
    ∃ more, RedoRecord.encodeAll codecs (log.toRedo e.maps.contains) = .ok more ∧
      bs' = bs ++ more := by
  induction log generalizing bs n e with
  | nil =>
    cases h
    exact ⟨[], rfl, (List.append_nil _).symm⟩
  | cons r rest ih =>
    obtain ⟨k, ⟨bs₁, e₁⟩, hhead, h⟩ := exists_of_runOn_bind h
    obtain ⟨k', ⟨bs₂, e₂⟩, htail, h⟩ := exists_of_runOn_bind h
    cases h
    -- The estimates may have changed, but not the maps.
    obtain ⟨dirty, hsame⟩ := r.writeRedo_eq bs e
    rw [hhead] at hsame
    have hmaps : e₁.maps = e.maps := by
      rw [show e₁ = { e with dirty } from hsame]
    obtain ⟨more, hmore, rfl⟩ := ih (e := e₁) (by rw [hmaps]; exact hcodecs) htail
    rw [hmaps] at hmore
    rw [UndoRecord.runOn_writeRedo] at hhead
    -- Two cases skip a record, because its write is over or its map is closed.
    have hskipped : (!r.isFinished && e.maps.contains r.map) = false → bs = bs₁ →
        ∃ all, RedoRecord.encodeAll codecs (toRedo e.maps.contains (r :: rest)) = .ok all ∧
          bs₁ ++ more = bs ++ all := by
      intro hr hbs
      have hredo : toRedo e.maps.contains (r :: rest) = toRedo e.maps.contains rest := by
        rw [toRedo, List.filter_cons_of_neg (by simp [hr])]
        rfl
      rw [hredo, hbs]
      exact ⟨more, hmore, rfl⟩
    split at hhead
    · rename_i hdone
      exact hskipped (by simp [hdone]) (congrArg (fun x => x.2.1) hhead)
    · rename_i hdone
      cases hm : e.maps.get? r.map with
      | none =>
        simp only [hm] at hhead
        exact hskipped (by simp [Table.contains, hm]) (congrArg (fun x => x.2.1) hhead)
      | some m =>
        -- The record is written with the codecs of its map, which are those of the book.
        have hbook : codecs r.map = (m.keyCodec, m.valueCodec) :=
          hcodecs r.map _ (by rw [codecsOf, hm]; rfl)
        cases he : r.toRedo.encode m.keyCodec m.valueCodec with
        | error err => simp [hm, he] at hhead
        | ok record =>
          simp only [hm, he] at hhead
          obtain rfl : bs ++ record = bs₁ := congrArg (fun x => x.2.1) hhead
          have hredo : toRedo e.maps.contains (r :: rest) =
              r.toRedo :: toRedo e.maps.contains rest := by
            rw [toRedo, List.filter_cons_of_pos (by simp [hdone, Table.contains, hm])]
            rfl
          have hcodec : r.toRedo.encode (codecs r.toRedo.map).1 (codecs r.toRedo.map).2 =
              .ok record := by
            show r.toRedo.encode (codecs r.map).1 (codecs r.map).2 = .ok record
            rw [hbook, he]
          refine ⟨record ++ more, ?_, List.append_assoc bs record more⟩
          rw [hredo, RedoRecord.encodeAll]
          simp only [hcodec, hmore]

end UndoLog

/-! ## Logging a commit -/

/-- A log that holds frames and takes more of them, on a device without faults. -/
structure RedoLog.Serves (log : RedoLog) (frames : List Frame) : Prop where
  holds : log.Holds frames
  unpoisoned : log.poisoned = false
  faultless : log.device.faults = .none

/-- A frame that is not too long is appended. -/
theorem RedoLog.Serves.append {log : RedoLog} {frames : List Frame} (h : log.Serves frames)
    (t : TxnId) {payload : List UInt8} (hshort : payload.length < UInt32.size)
    (hlsn : log.nextLsn.val.toNat + 1 < UInt64.size) :
    ∃ log', (RedoLog.append t payload).runOn log = (.ok log.nextLsn, log') ∧
      log'.Serves (frames ++ [⟨log.nextLsn, t, payload⟩]) ∧ log'.header = log.header ∧
      log'.nextLsn = log.nextLsn.next := by
  have hend := h.holds.appendOffset_eq_size h.unpoisoned
  have hrun := RedoLog.runOn_append t hshort h.unpoisoned hend
  simp only [h.faultless, DeviceFaults.none, Bool.false_eq_true, and_false, if_false] at hrun
  have hholds := h.holds.appended h.unpoisoned t hshort hlsn
  exact ⟨_, hrun, ⟨hholds, h.unpoisoned, h.faultless⟩, rfl, rfl⟩

namespace Engine

variable {codecs : CodecBook} {e : Engine} {log : RedoLog} {frames : List Frame}

/-- All that logging the writes of a transaction does on a device without faults: it fails and
leaves the log as it was, it finds nothing to log, or it logs the records of the writes in one
frame. -/
theorem logWrites_cases (hcodecs : ∀ name c, codecsOf e.maps name = some c → codecs name = c)
    (hlog : e.log = some log) (hserves : log.Serves frames)
    (hlsn : log.nextLsn.val.toNat + 1 < UInt64.size) (t : TxnId) (writes : UndoLog) :
    let rs := writes.toRedo e.maps.contains
    (∃ err e', (logWrites t writes).runOn e = (.error err, e') ∧ e'.log = some log) ∨
      (∃ e', rs = [] ∧ (logWrites t writes).runOn e = (.ok (), e') ∧ e'.log = some log) ∨
      ∃ bs log' e', RedoRecord.encodeAll codecs rs = .ok bs ∧
        (logWrites t writes).runOn e = (.ok (), e') ∧ e'.log = some log' ∧
        log'.Serves (frames ++ [⟨log.nextLsn, t, bs⟩]) ∧ log'.header = log.header ∧
        log'.nextLsn = log.nextLsn.next := by
  intro rs
  obtain ⟨dirty, hsame⟩ := UndoLog.writeRedo_eq writes [] e
  unfold logWrites
  rw [runOn_bind, runOn_get]
  rcases hr : (UndoLog.writeRedo writes).runOn ([], e) with ⟨err | n, bs, e₁⟩
  · rw [hr] at hsame
    -- A record could not be encoded, and the log was not reached.
    left
    refine ⟨err, e₁, by simp only [hr, runOn_bind, runOn_set, runOn_ofExcept], ?_⟩
    rw [show e₁ = { e with dirty } from hsame]
    exact hlog
  · rw [hr] at hsame
    have hlog₁ : e₁.log = some log := by
      rw [show e₁ = { e with dirty } from hsame]
      exact hlog
    obtain ⟨more, hmore, hbs⟩ := UndoLog.eq_of_runOn_writeRedo hcodecs hr
    obtain rfl : bs = more := hbs
    simp only [hr, runOn_bind, runOn_set, runOn_ofExcept]
    split
    · rcases Nat.lt_or_ge bs.length UInt32.size with hshort | hlong
      · -- There are records and they fit into a frame.
        obtain ⟨log', hrun, hserves', hheader, hnext⟩ := hserves.append t hshort hlsn
        right
        right
        refine ⟨bs, log', ({ e₁ with log := some log' } : Engine).countFrame bs, hmore, ?_, rfl,
          hserves', hheader, hnext⟩
        rw [runOn_logCommit, hlog₁]
        simp only [hrun]
      · left
        -- They do not fit, and the log refuses them before it does anything.
        refine ⟨.invalid .frameTooLong, { e₁ with log := some log }, ?_, rfl⟩
        rw [runOn_logCommit, hlog₁]
        simp only [RedoLog.runOn_append_of_long t hlong]
    · rename_i hempty
      right
      left
      have hnil : bs = [] := by simpa using hempty
      -- No bytes were written, and each record takes some, so that there are no records.
      have hcount : 8 * rs.length ≤ bs.length := RedoRecord.length_le_encodeAll hmore
      rw [hnil, List.length_nil] at hcount
      exact ⟨e₁, List.eq_nil_of_length_eq_zero (by omega), rfl, hlog₁⟩

end Engine

end TxnStore
