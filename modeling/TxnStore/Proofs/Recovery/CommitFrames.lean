import TxnStore.Proofs.Log.Additions
import TxnStore.Proofs.Recovery.Reopening
import TxnStore.Proofs.Transactions.Aborts

/-!
# The frame of a commit

What a transaction has written and not undone is told by the calls and their answers. A commit adds
one frame to the log, with the records of these writes as far as their maps are still open, or no
frame if there are none. Nobody else adds a frame. Each record is read back with the codecs of its
map.
-/

namespace TxnStore

open TxnStore.Action

/-! ## The records of surviving writes -/

/-- The redo records of the surviving writes of each transaction, the oldest first. -/
abbrev RecordHistory := TxnId → List RedoRecord

namespace RecordHistory

/-- Nothing was written yet. -/
def blank : RecordHistory := fun _ => []

/-- The history with other records of one transaction. -/
def set (h : RecordHistory) (t : TxnId) (records : List RedoRecord) : RecordHistory :=
  fun u => if u = t then records else h u

/-- The history after a call and its answer. A write that was made adds its record, whatever was
written to the key before, and going back to a savepoint takes the records after it away. -/
def note (h : RecordHistory) : TxnCall → Except StoreError TxnAnswer → RecordHistory
  | .begin _, .ok (.begun t) => h.set t []
  | .put t p value, .ok _ => h.set t (h t ++ [⟨p.map, p.key, some value⟩])
  | .delete t p, .ok (.deleted true) => h.set t (h t ++ [⟨p.map, p.key, none⟩])
  | .rollbackTo t n, .ok _ => h.set t ((h t).take n)
  | _, _ => h

def step (h : RecordHistory) (e : Engine) : EngineRequest → RecordHistory
  | .call c => h.note c (c.action.runOn e).1
  | _ => h

end RecordHistory

/-- An engine and a history of records after requests one after the other, during each of which
certain calls of the device of the log fail. -/
def Engine.runRecording (e : Engine) (h : RecordHistory) :
    List (DeviceFaults × EngineRequest) → Engine × RecordHistory
  | [] => (e, h)
  | (faults, q) :: rest =>
    runRecording ((e.withFaults faults).after q) (h.step (e.withFaults faults) q) rest

/-- A log has a pending write for each record. -/
structure UndoLog.HasRecords (log : UndoLog) (records : List RedoRecord) : Prop where
  records : log.map UndoRecord.toRedo = records
  pending : ∀ r ∈ log, r.isFinished = false

namespace UndoLog.HasRecords

variable {log : UndoLog} {records : List RedoRecord}

theorem nil : HasRecords [] [] := ⟨rfl, fun _ hr => absurd hr List.not_mem_nil⟩

theorem take (h : log.HasRecords records) (n : Nat) :
    UndoLog.HasRecords (log.take n) (records.take n) where
  records := by rw [List.map_take, h.records]
  pending r hr := h.pending r (List.mem_of_mem_take hr)

theorem concat (h : log.HasRecords records) {r : UndoRecord} (hr : r.isFinished = false) :
    UndoLog.HasRecords (log ++ [r]) (records ++ [r.toRedo]) where
  records := by rw [List.map_append, h.records, List.map_singleton]
  pending s hs := by
    rcases List.mem_append.mp hs with hold | hnew
    · exact h.pending s hold
    · rw [List.mem_singleton.mp hnew]
      exact hr

/-- The records to be logged are those of open maps. -/
theorem toRedo_eq (h : log.HasRecords records) (isOpen : String → Bool) :
    log.toRedo isOpen = records.filter fun w => isOpen w.map := by
  have hpending : log.filter (fun r => !r.isFinished && isOpen r.map) =
      log.filter fun r => isOpen r.map := by
    apply List.filter_congr
    intro r hr
    rw [h.pending r hr, Bool.not_false, Bool.true_and]
  rw [UndoLog.toRedo, hpending, ← h.records, List.filter_map]
  rfl

end UndoLog.HasRecords

namespace RecordHistory

/-- The logs of all transactions under way have the records of the history. -/
def Remembers (h : RecordHistory) (e : Engine) : Prop :=
  ∀ ⦃t txn⦄, e.live.get? t = some txn → txn.log.HasRecords (h t)

namespace Remembers

variable {h : RecordHistory} {e e' : Engine} {t : TxnId}

/-- Transactions may end. -/
theorem erase (hh : h.Remembers e) (hlive : e'.live = e.live.erase t) : h.Remembers e' := by
  intro u txn hl
  rw [hlive, Table.get?_erase] at hl
  split at hl
  · cases hl
  · exact hh hl

/-- The log of one transaction changes along with its records. -/
theorem set (hh : h.Remembers e) {log : UndoLog} {records : List RedoRecord}
    (hlive : e'.live = (e.setLog t log).live) (hlog : log.HasRecords records) :
    (h.set t records).Remembers e' := by
  intro u txn hl
  rw [hlive, Engine.get?_live_setLog] at hl
  unfold RecordHistory.set
  -- The history of the transaction is set along with its log; the others have not moved.
  by_cases hut : u = t
  · subst hut
    rw [if_pos rfl] at hl ⊢
    obtain ⟨txn₀, -, rfl⟩ := Option.map_eq_some_iff.mp hl
    exact hlog
  · rw [if_neg hut] at hl ⊢
    exact hh hl

/-- A call keeps the history and the logs in agreement. -/
theorem effect {c : TxnCall} {a : Except StoreError TxnAnswer} (hh : h.Remembers e)
    (hx : Effect e c a e') : (h.note c a).Remembers e' := by
  cases hx with
  -- What is refused leaves the history, as it notes answers only.
  | refused => cases c <;> exact hh
  | found | saved | unseen | closed => exact hh
  | @begun isolation =>
    intro u txn hl
    have hl' : (e.live.insert e.nextTxn
        ⟨isolation.getD e.settings.defaultIsolation, []⟩).get? u = some txn := hl
    rw [Table.get?_insert] at hl'
    show txn.log.HasRecords (if u = e.nextTxn then [] else h u)
    split at hl'
    · next hu =>
      cases hl'
      rw [if_pos hu]
      exact .nil
    · next hu =>
      rw [if_neg hu]
      exact hh hl'
  | @written t txn p payload m v hl hm hv =>
    obtain ⟨rfl, -⟩ := Engine.eq_of_versionToWrite hv
    -- The record of the write has the payload that was written.
    have hmore : UndoLog.HasRecords (txn.log ++ [_]) (h t ++ [⟨p.map, p.key, payload⟩]) :=
      (hh hl).concat (r := UndoRecord.ofWrite p.map p.key
        ((m.get? p.key).filter fun old => !old.isTombstone)
        (.written t payload ((m.get? p.key).bind Version.lastCommitted))) rfl
    cases payload <;> exact hh.set rfl hmore
  -- Going back drops the same records from the history as from the log.
  | @wentBack t txn n hl _ => exact hh.set (e.live_afterRollbackTo t txn.log n) ((hh hl).take n)
  | @ended t txn _ _ hc =>
    have hsame := hh.erase (e.live_aborted t txn.log)
    -- However a transaction ends, nothing of it is remembered.
    rcases hc with rfl | rfl <;> exact hsame
  | @undone t txn _ e₁ _ hlog =>
    exact hh.erase ((e₁.live_aborted t txn.log).trans (by rw [Engine.live_of_logWrites hlog]))
  | @committed t txn e₁ _ hlog =>
    exact hh.erase ((e₁.live_committed t txn.log).trans (by rw [Engine.live_of_logWrites hlog]))

theorem after (hh : h.Remembers e) (q : EngineRequest) : (h.step e q).Remembers (e.after q) := by
  cases q with
  | call c => exact hh.effect (c.effect e)
  | createMap name keyCodec valueCodec =>
    exact fun _ _ hl => hh ((e.createMap_cases name keyCodec valueCodec).1 ▸ hl)
  | dropMap name => exact fun _ _ hl => hh ((e.dropMap_cases name).1 ▸ hl)

end Remembers

end RecordHistory

/-! ## Records in a frame -/

/-- A frame has the given records and no others: its payload is split into one part for each of
them, and the part is read with the codecs of the map. -/
def Frame.HasRecords (f : Frame) (maps : Table String VersionMap) (records : List RedoRecord) :
    Prop :=
  ∃ parts, f.records = .ok parts ∧
    List.Forall₂ (fun (part : RawRecord) (r : RedoRecord) => part.map = r.map ∧
      ∃ m, maps.get? r.map = some m ∧
        part.decode m.keyCodec m.valueCodec = .ok (r.key, r.payload)) parts records

/-- What a commit of a transaction is to add to a log for records of open maps: one frame with all
of them, or none if there are none. -/
inductive IsFrameFor (t : TxnId) (maps : Table String VersionMap) :
    List RedoRecord → Option Frame → Prop where
  | empty : IsFrameFor t maps [] none
  | frame {records : List RedoRecord} {f : Frame} :
      records ≠ [] → f.txn = t → f.HasRecords maps records → IsFrameFor t maps records (some f)

theorem IsFrameFor.exists_frame {t : TxnId} {maps : Table String VersionMap}
    {records : List RedoRecord} {f : Option Frame} (h : IsFrameFor t maps records f)
    (hsome : records ≠ []) : ∃ g, f = some g ∧ g.txn = t ∧ g.HasRecords maps records := by
  cases h with
  | empty => exact absurd rfl hsome
  | frame _ htxn hrecords => exact ⟨_, rfl, htxn, hrecords⟩

/-- A payload of encoded records has them. -/
theorem Frame.hasRecords_of_encodeAll {maps : Table String VersionMap} {records : List RedoRecord}
    {bs : List UInt8} (hopen : ∀ r ∈ records, maps.contains r.map = true)
    (hshort : bs.length < UInt32.size)
    (h : RedoRecord.encodeAll (codecBook maps) records = .ok bs) (lsn : Lsn) (t : TxnId) :
    Frame.HasRecords ⟨lsn, t, bs⟩ maps records := by
  refine ⟨_, RedoRecord.split_encodeAll hshort h, ?_⟩
  clear hshort
  -- Record by record, each is decoded with the codecs of its map, with which it was written.
  induction records generalizing bs with
  | nil => exact .nil
  | cons r rest ih =>
    obtain ⟨head, more, hhead, hmore, -⟩ := RedoRecord.encodeAll_cons h
    obtain ⟨m, hm⟩ := Option.isSome_iff_exists.mp (hopen r List.mem_cons_self)
    have hcodecs : codecBook maps r.map = (m.keyCodec, m.valueCodec) :=
      codecBook_of_codecsOf (by rw [codecsOf, hm]; rfl)
    refine .cons ⟨r.raw_map _, m, hm, ?_⟩ (ih (fun w hw => hopen w (List.mem_cons_of_mem r hw)) hmore)
    have hdecode := RedoRecord.decode_raw hhead
    rwa [hcodecs] at hdecode

namespace Engine

variable {e e' : Engine} {log : RedoLog} {t : TxnId}

/-- The bytes that a commit logs are those of its records, and the log is left alone if there are
none. -/
theorem append_of_logWrites {writes : UndoLog} (hlog : e.log = some log)
    (h : (logWrites t writes).runOn e = (.ok (), e')) :
    ∃ bs, RedoRecord.encodeAll (codecBook e.maps) (writes.toRedo e.maps.contains) = .ok bs ∧
      ((bs = [] ∧ e'.log = some log) ∨
        bs ≠ [] ∧ ∃ lsn log', (RedoLog.append t bs).runOn log = (.ok lsn, log') ∧
          e'.log = some log') := by
  obtain ⟨dirty, hsame⟩ := UndoLog.writeRedo_eq writes [] e
  unfold logWrites at h
  rw [runOn_bind, runOn_get] at h
  rcases hr : (UndoLog.writeRedo writes).runOn ([], e) with ⟨err | n, bs, e₁⟩
  · -- A commit that could not be encoded does not succeed.
    simp only [hr, runOn_bind, runOn_set, runOn_ofExcept] at h
    cases h
  · rw [hr] at hsame
    obtain rfl : e₁ = { e with dirty } := hsame
    obtain ⟨more, hmore, hbs⟩ :=
      UndoLog.eq_of_runOn_writeRedo (fun _ _ => codecBook_of_codecsOf) hr
    obtain rfl : bs = more := hbs
    refine ⟨bs, hmore, ?_⟩
    simp only [hr, runOn_bind, runOn_set, runOn_ofExcept] at h
    split at h
    · next hsome =>
      right
      refine ⟨by simpa using hsome, ?_⟩
      rw [runOn_logCommit] at h
      simp only [hlog] at h
      -- The append must have succeeded, since the commit has.
      rcases happend : (RedoLog.append t bs).runOn log with ⟨err | lsn, log'⟩
      · simp only [happend] at h
        cases h
      · simp only [happend] at h
        cases h
        exact ⟨lsn, log', rfl, rfl⟩
    · -- There was nothing to append.
      next hnone =>
      cases h
      exact .inl ⟨by simpa using hnone, hlog⟩

/-- All that logging the writes of a transaction adds: nothing if it fails, and otherwise one frame
with their records, if there are any. -/
theorem gains_of_logWrites {writes : UndoLog} {a : Except StoreError Unit} (hlog : e.log = some log)
    (htrimmed : log.IsTrimmed) (h : (logWrites t writes).runOn e = (a, e')) :
    ∃ log' f, e'.log = some log' ∧ log.Gains log' f ∧ ((∃ err, a = .error err) → f = none) ∧
      (a = .ok () → IsFrameFor t e.maps (writes.toRedo e.maps.contains) f) := by
  cases a with
  | error err =>
    -- A commit that fails has left the log alone, or has failed in the append.
    rcases log_of_logWrites h with hsame | ⟨log₀, log', payload, b, hlog₀, hlog', happend, hfails⟩
    · exact ⟨log, none, hsame.trans hlog, .of_same rfl rfl rfl, fun _ => rfl, fun h => by cases h⟩
    · obtain rfl := Option.some.inj (hlog.symm.trans hlog₀)
      obtain ⟨err', rfl⟩ := hfails ⟨err, rfl⟩
      rcases htrimmed.gains happend with ⟨-, hgains⟩ | ⟨hok, -⟩
      · exact ⟨log', none, hlog', hgains, fun _ => rfl, fun h => by cases h⟩
      · cases hok
  | ok u =>
    -- The bytes are those of the records that survive.
    obtain ⟨bs, hbs, hcases⟩ := append_of_logWrites hlog h
    have hcount := RedoRecord.length_le_encodeAll hbs
    rcases hcases with ⟨rfl, hlog'⟩ | ⟨hsome, lsn, log', happend, hlog'⟩
    · -- Each record takes some bytes, so that there are none.
      have hnone : writes.toRedo e.maps.contains = [] :=
        List.eq_nil_of_length_eq_zero (by rw [List.length_nil] at hcount; omega)
      refine ⟨log, none, hlog', .of_same rfl rfl rfl, fun _ => rfl, fun _ => ?_⟩
      rw [hnone]
      exact .empty
    · rcases htrimmed.gains happend with ⟨⟨err, herr⟩, -⟩ | ⟨-, hgains⟩
      · cases herr
      refine ⟨log', some _, hlog', hgains, fun ⟨err, herr⟩ => (by cases herr), fun _ => ?_⟩
      refine .frame ?_ rfl (Frame.hasRecords_of_encodeAll ?_ (hgains.short _ rfl) hbs _ t)
      · -- A frame without records is not written.
        intro hnone
        rw [hnone] at hbs
        cases hbs
        exact hsome rfl
      · exact fun r hr => UndoLog.contains_of_mem_toRedo hr

/-! ## What calls add to the log -/

/-- A call adds a frame only if it is a commit that succeeds, and the frame then has the records of
the transaction. -/
theorem gains_of_effect {c : TxnCall} {a : Except StoreError TxnAnswer} (hx : Effect e c a e')
    (hlog : e.log = some log) (htrimmed : log.IsTrimmed) :
    ∃ log' f, e'.log = some log' ∧ log.Gains log' f ∧
      (f.isSome = true → ∃ t, c = .commit t ∧ a = .ok .done) ∧
      ∀ t txn, c = .commit t → a = .ok .done → e.live.get? t = some txn →
        IsFrameFor t e.maps (txn.log.toRedo e.maps.contains) f := by
  cases hc : c.isCommit with
  | false =>
    -- The log is touched by commits only.
    have hsame : e'.log = some log := (hx.sameFooting hc).log.trans hlog
    refine ⟨log, none, hsame, .of_same rfl rfl rfl, fun h => (by cases h), ?_⟩
    rintro t txn rfl
    cases hc
  | true =>
    cases hx with
    | refused =>
      exact ⟨log, none, hlog, .of_same rfl rfl rfl, fun h => (by cases h),
        fun _ _ _ h => by cases h⟩
    -- The commit is undone, and the append that failed has added nothing.
    | @undone t txn err e₁ _ hrun =>
      obtain ⟨log', f, hlog', hgains, hnone, -⟩ := gains_of_logWrites hlog htrimmed hrun
      obtain rfl := hnone ⟨err, rfl⟩
      exact ⟨log', none, (aborted_sameFooting e₁ t txn.log).log.trans hlog', hgains,
        fun h => (by cases h), fun _ _ _ h => by cases h⟩
    | @committed t txn e₁ hl hrun =>
      -- The frame that was added holds the records of the transaction.
      obtain ⟨log', f, hlog', hgains, -, hframe⟩ := gains_of_logWrites hlog htrimmed hrun
      refine ⟨log', f, (committed_sameFooting e₁ t txn.log).log.trans hlog', hgains,
        fun _ => ⟨t, rfl, rfl⟩, ?_⟩
      rintro u txn' ⟨⟩ - hl'
      obtain rfl := Option.some.inj (hl.symm.trans hl')
      exact hframe rfl
    -- The other effects are not those of a commit.
    | @written t txn p payload _ _ _ _ _ => cases payload <;> cases hc
    | @ended t txn _ _ hc' => rcases hc' with rfl | rfl <;> cases hc
    | _ => cases hc

end Engine

def EngineRequest.isCommit : EngineRequest → Bool
  | call c => c.isCommit
  | _ => false

namespace Engine

variable {e : Engine} {log : RedoLog} {h : RecordHistory}

/-- Only commits add frames. -/
theorem gains_after (hlog : e.log = some log) (htrimmed : e.LogTrimmed) (q : EngineRequest) :
    ∃ log' f, (e.after q).log = some log' ∧ (e.after q).LogTrimmed ∧ log.Gains log' f ∧
      (f.isSome = true → q.isCommit = true) := by
  cases q with
  | call c =>
    -- A call may add a frame if it is a commit that succeeds.
    obtain ⟨log', f, hlog', hgains, hcommit, -⟩ := gains_of_effect (c.effect e) hlog (htrimmed hlog)
    refine ⟨log', f, hlog', (c.effect e).logTrimmed htrimmed, hgains, fun hf => ?_⟩
    obtain ⟨t, rfl, -⟩ := hcommit hf
    rfl
  | createMap name keyCodec valueCodec =>
    obtain ⟨-, -, hsame, -⟩ := e.createMap_cases name keyCodec valueCodec
    -- Maps come and go without the log.
    exact ⟨log, none, hsame.trans hlog, htrimmed.of_log hsame, .of_same rfl rfl rfl,
      fun hf => by cases hf⟩
  | dropMap name =>
    obtain ⟨-, -, hsame, -⟩ := e.dropMap_cases name
    exact ⟨log, none, hsame.trans hlog, htrimmed.of_log hsame, .of_same rfl rfl rfl,
      fun hf => by cases hf⟩

theorem LogTrimmed.withFaults (htrimmed : e.LogTrimmed) (faults : DeviceFaults) :
    (e.withFaults faults).LogTrimmed := by
  intro log hlog
  obtain ⟨log₀, hlog₀, rfl⟩ := Option.map_eq_some_iff.mp hlog
  exact (htrimmed hlog₀).withFaults faults

/-- Along a run the history and the logs of the transactions agree, and all frames in the log of the
engine are listed as long as there are numbers for them. -/
theorem run_recording (hlog : e.log = some log) (htrimmed : e.LogTrimmed) (hh : h.Remembers e)
    (requests : List (DeviceFaults × EngineRequest)) :
    let s := e.runRecording h requests
    s.2.Remembers s.1 ∧ s.1.LogTrimmed ∧ ∃ log', s.1.log = some log' ∧
      ∀ frames n, log.Lists frames →
        log.HasNumbers (n + requests.countP fun q => q.2.isCommit) →
          ∃ frames', log'.Lists frames' ∧ log'.HasNumbers n := by
  induction requests generalizing e log h with
  | nil => exact ⟨hh, htrimmed, log, hlog, fun frames n hlists hnumbers => ⟨frames, hlists, hnumbers⟩⟩
  | cons q rest ih =>
    obtain ⟨faults, q⟩ := q
    -- The faults of a call do not touch what the log holds.
    have hfaulty : (e.withFaults faults).log = some (log.withFaults faults) := by
      rw [withFaults, hlog, Option.map_some]
    obtain ⟨log₁, f, hlog₁, htrimmed₁, hgains, hcommit⟩ :=
      gains_after hfaulty (htrimmed.withFaults faults) q
    have hremembers : h.Remembers (e.withFaults faults) := hh
    obtain ⟨hh', htrimmed', log', hlog', hnext⟩ := ih hlog₁ htrimmed₁ (hremembers.after q)
    refine ⟨hh', htrimmed', log', hlog', fun frames n hlists hnumbers => ?_⟩
    -- A commit uses up one of the numbers, whether or not it adds a frame.
    have hcount : (n + rest.countP fun q => q.2.isCommit) + (if f.isSome then 1 else 0) ≤
        n + ((faults, q) :: rest).countP fun q => q.2.isCommit := by
      rw [List.countP_cons]
      cases hf : f.isSome with
      | false => simp
      | true =>
        simp only [hcommit hf, if_true]
        omega
    have hlists₁ := (hlists.withFaults faults).gains hgains fun _ => hnumbers.starts
    exact hnext _ n hlists₁ (((hnumbers.withFaults faults).le hcount).gains hgains)

end Engine

/-! ## The main statement -/

/-- Let an engine have a log, and let no transaction under way have written anything yet. Take any
requests to it, with any calls of the device of the log failing during each of them, and then any
call while some transaction is under way. The log gains at most one frame. If the call rolls the
transaction back or drops it, or is a commit that fails, the log gains none. If the call commits the
transaction, the log gains one frame with the number of the transaction and with the records of its
surviving writes to maps that are still open, the oldest first and each to be read with the codecs of
its map, or none if there are no such writes. Whoever reads the log finds this frame behind those
that were there before, as long as the numbers of frames are not used up. -/
theorem Engine.commit_adds_one_frame {e : Engine} {log : RedoLog} (hlog : e.log = some log)
    (htrimmed : log.IsTrimmed)
    (hunwritten : ∀ ⦃u txn⦄, e.live.get? u = some txn → txn.log = [])
    (requests : List (DeviceFaults × EngineRequest)) {t : TxnId} (faults : DeviceFaults)
    {c : TxnCall} {a : Except StoreError TxnAnswer} {e' : Engine} :
    let s := e.runRecording .blank requests
    (s.1.live.get? t).isSome = true → c.action.runOn (s.1.withFaults faults) = (a, e') →
      ∃ before after f, s.1.log = some before ∧ e'.log = some after ∧ before.Gains after f ∧
        (GivesUp t c a → f = none) ∧
        (c = .commit t → a = .ok .done →
          IsFrameFor t s.1.maps ((s.2 t).filter fun w => s.1.maps.contains w.map) f) ∧
        ∀ frames, log.Lists frames →
          log.HasNumbers (1 + requests.countP fun q => q.2.isCommit) →
            ∃ frames', ∀ faults', faults'.read = false →
              s.1.framesUnder faults' = some (.ok (frames', before.appendOffset)) ∧
              e'.framesUnder faults' =
                some (.ok (frames' ++ f.toList, after.appendOffset)) := by
  intro s hlive hrun
  -- At the start there is nothing to remember.
  have hremembers : RecordHistory.Remembers .blank e := fun u txn hl => by
    rw [hunwritten hl]
    exact .nil
  have htrimmed₀ : e.LogTrimmed := fun l hl => by
    obtain rfl := Option.some.inj (hlog.symm.trans hl)
    exact htrimmed
  obtain ⟨hh, htrimmed', before, hbefore, hlists⟩ :=
    Engine.run_recording hlog htrimmed₀ hremembers requests
  obtain ⟨txn, hl⟩ := Option.isSome_iff_exists.mp hlive
  -- The call is one more effect, on the engine that the run has left.
  have hx := c.effect (s.1.withFaults faults)
  rw [hrun] at hx
  have hfaulty : (s.1.withFaults faults).log = some (before.withFaults faults) := by
    rw [Engine.withFaults, hbefore, Option.map_some]
  obtain ⟨after, f, hafter, hgains, hcommit, hframe⟩ :=
    Engine.gains_of_effect hx hfaulty (htrimmed'.withFaults faults hfaulty)
  refine ⟨before, after, f, hbefore, hafter, hgains.of_withFaults, fun hup => ?_, ?_, ?_⟩
  · cases f with
    | none => rfl
    | some g =>
      -- Only a commit that succeeds adds a frame.
      obtain ⟨u, rfl, rfl⟩ := hcommit rfl
      cases hup
  · -- The records are those of the history whose map is open.
    intro hc ha
    have hof := hframe t txn hc ha hl
    rwa [(hh hl).toRedo_eq] at hof
  · intro frames hlisted hnumbers
    -- The frames of the log so far, and a number for the next one.
    obtain ⟨frames', hlists', hnumbers'⟩ := hlists frames 1 hlisted hnumbers
    refine ⟨frames', fun faults' hread => ⟨?_, ?_⟩⟩
    · rw [Engine.framesUnder, hbefore, Option.map_some,
        (hlists'.withFaults faults').frames_eq ((htrimmed' hbefore).withFaults faults') hread]
      rfl
    · -- One frame more, if one was added, and the log is trimmed as before.
      have hlists'' := hlists'.gains hgains.of_withFaults fun _ => hnumbers'.starts
      have htrimmed'' := hx.logTrimmed (htrimmed'.withFaults faults) hafter
      rw [Engine.framesUnder, hafter, Option.map_some,
        (hlists''.withFaults faults').frames_eq (htrimmed''.withFaults faults') hread]
      rfl

/-- A key is written twice and deleted, a write to another key is taken back, and another map is
dropped. One frame has the three records that are left. -/
theorem Engine.commit_adds_one_frame_of_overwritten_key :
    let options := LogOptions.basic 7 .never
    let quiet (c : TxnCall) : DeviceFaults × EngineRequest := (.none, .call c)
    let requests : List (DeviceFaults × EngineRequest) :=
      [(.none, .createMap "m" .int64 .text), (.none, .createMap "n" .int64 .text),
        quiet (.begin none), quiet (.put ⟨1⟩ ⟨"m", .int 1⟩ (.text "a")),
        quiet (.put ⟨1⟩ ⟨"n", .int 1⟩ (.text "x")), quiet (.put ⟨1⟩ ⟨"m", .int 1⟩ (.text "b")),
        quiet (.put ⟨1⟩ ⟨"m", .int 2⟩ (.text "c")), quiet (.rollbackTo ⟨1⟩ 3),
        quiet (.delete ⟨1⟩ ⟨"m", .int 1⟩), (.none, .dropMap "n")]
    let records : List RedoRecord :=
      [⟨"m", .int 1, some (.text "a")⟩, ⟨"m", .int 1, some (.text "b")⟩, ⟨"m", .int 1, none⟩]
    ∃ log device e, RedoLog.openOn options (Device.ofBytes []) = (.ok log, device) ∧
      Engine.openWith .basic .inMemory (some log) none = .ok e ∧
      let s := e.runRecording .blank requests
      let x := (TxnCall.commit ⟨1⟩).action.runOn (s.1.withFaults .none)
      (s.1.live.get? ⟨1⟩).isSome = true ∧ x.1 = .ok .done ∧
        ∃ f stop, x.2.framesUnder .none = some (.ok ([f], stop)) ∧ f.txn = ⟨1⟩ ∧
          f.HasRecords s.1.maps records := by
  intro options quiet requests records
  let log := RedoLog.fresh options
  have hlog : RedoLog.openOn options (Device.ofBytes []) = (.ok log, log.device) :=
    RedoLog.openOn_fresh options
  have htrimmed : log.IsTrimmed := RedoLog.isTrimmed_of_openOn hlog
  obtain ⟨frames, hlists⟩ := RedoLog.Lists.exists_of_openOn hlog
  let e := Engine.bare .basic .inMemory (some log) none
  have hopen : Engine.openWith .basic .inMemory (some log) none = .ok e := rfl
  have hunwritten : ∀ ⦃u txn⦄, e.live.get? u = some txn → txn.log = [] := fun _ _ hl => by cases hl
  have hnumbers : log.HasNumbers (1 + requests.countP fun q => q.2.isCommit) :=
    ⟨by decide, by decide⟩
  let s := e.runRecording .blank requests
  let x := (TxnCall.commit ⟨1⟩).action.runOn (s.1.withFaults .none)
  have hlive : (s.1.live.get? ⟨1⟩).isSome = true := by decide +kernel
  have hdone : x.1 = .ok .done := by decide +kernel
  have hrun : x = (.ok .done, x.2) := by rw [← hdone]
  obtain ⟨before, after, f, -, -, -, -, hframe, hread⟩ :=
    Engine.commit_adds_one_frame rfl htrimmed hunwritten requests .none hlive hrun
  -- The records of the map that was dropped are left out.
  have hrecords : (s.2 ⟨1⟩).filter (fun w => s.1.maps.contains w.map) = records := by
    decide +kernel
  have hof := hframe rfl rfl
  rw [hrecords] at hof
  obtain ⟨frames', hframes⟩ := hread frames hlists hnumbers
  obtain ⟨hbefore, hafter⟩ := hframes .none rfl
  -- No transaction was committed before.
  have hnone : (s.1.framesUnder .none).map (fun r => r.toOption.map Prod.fst) = some (some []) := by
    decide +kernel
  rw [hbefore] at hnone
  obtain rfl : frames' = [] := Option.some.inj (Option.some.inj hnone)
  obtain ⟨f, rfl, htxn, hhas⟩ := hof.exists_frame (List.cons_ne_nil _ _)
  exact ⟨log, _, e, hlog, hopen, hlive, hdone, f, _, hafter, htxn, hhas⟩

end TxnStore
