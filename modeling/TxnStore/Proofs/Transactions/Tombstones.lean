import Mathlib.Data.List.Induction
import TxnStore.Proofs.Recovery.CommitFrames
import TxnStore.Proofs.Transactions.Readers
import TxnStore.Proofs.Transactions.RepeatedReads

/-!
# What commits leave of deletes

A commit makes the writes of its transaction final one after the other, so that a key may be
deleted, put and deleted again on the way. What is left in the slot depends on the last write alone:
a delete leaves a committed tombstone if some unfinished transaction must read the same value each
time, the one that commits among them, and it leaves an empty slot otherwise. Either way the map has
one row less, since a transaction deletes only what it sees.
-/

namespace TxnStore

open TxnStore.Action

/-! ## The slot of one place -/

/-- What a commit leaves in the slot of a place for the payload that was written there last. -/
def finalSlot (keepTombstone : Bool) : Option Value → Option Version
  | some q => some (.settled (some q))
  | none => if keepTombstone then some (.settled none) else none

/-- A row is left exactly where a value was written. -/
@[simp] theorem isLive_finalSlot (keep : Bool) (payload : Option Value) :
    VersionMap.isLive (finalSlot keep payload) = payload.isSome := by
  cases payload <;> cases keep <;> rfl

/-- Whether or not a tombstone is kept, everyone sees what was written last. -/
@[simp] theorem bind_visibleTo_finalSlot (keep : Bool) (payload : Option Value) (u : TxnId) :
    ((finalSlot keep payload).bind fun v => v.visibleTo u) = payload := by
  cases payload <;> cases keep <;> rfl

theorem get?_commitTo_self (m : VersionMap) (key : Value) (v : Version) (keep : Bool) :
    (UndoRecord.commitTo m key v.commit keep).get? key = finalSlot keep v.payload := by
  obtain ⟨payload, owner, committed, previous⟩ := v
  cases payload with
  | some q => simp [UndoRecord.commitTo, Version.commit, VersionMap.get?_put, finalSlot,
      Version.settled]
  | none =>
    cases keep with
    | true => simp [UndoRecord.commitTo, Version.commit, VersionMap.get?_put, finalSlot,
        Version.settled]
    | false => simp [UndoRecord.commitTo, Version.commit, VersionMap.get?_remove, finalSlot]

theorem slotAt_commit_self {e : Engine} {r : UndoRecord} (hr : r.isFinished = false)
    (hopen : e.maps.contains r.map = true) :
    slotAt (r.commit e).2.maps r.place = finalSlot e.hasRepeatableReaders r.written.payload := by
  obtain ⟨m, hm⟩ := Option.isSome_iff_exists.mp hopen
  rw [maps_commit hr hm, UndoRecord.place, slotAt, Table.get?_insert_self, Option.bind_some]
  exact get?_commitTo_self m r.key r.written e.hasRepeatableReaders

namespace UndoLog

variable {log : UndoLog} {e : Engine} {p : Place}

theorem contains_commit (log : UndoLog) (e : Engine) (name : String) :
    (commit log e).2.maps.contains name = e.maps.contains name := by
  induction log generalizing e with
  | nil => rfl
  | cons r rest ih => exact (ih (r.commit e).2).trans (TxnStore.contains_commit r e name)

/-- No transaction is over before all writes are final. -/
theorem hasRepeatableReaders_commit (log : UndoLog) (e : Engine) :
    (commit log e).2.hasRepeatableReaders = e.hasRepeatableReaders := by
  have hframe := commit_eq log e
  rw [hframe]
  rfl

theorem newestAt?_concat (log : UndoLog) (r : UndoRecord) (p : Place) :
    newestAt? (log ++ [r]) p = if r.place = p then some r.written.payload else newestAt? log p := by
  rw [newestAt?, List.reverse_concat, List.find?_cons]
  by_cases hp : r.place = p
  · rw [if_pos hp, decide_eq_true hp]
    rfl
  · rw [if_neg hp, decide_eq_false hp]
    rfl

/-- Making writes final leaves in each slot what the newest write there asks for. -/
theorem slotAt_commit (hpending : ∀ r ∈ log, r.isFinished = false)
    (hopen : e.maps.contains p.map = true) :
    slotAt (commit log e).2.maps p =
      match newestAt? log p with
      | some q => finalSlot e.hasRepeatableReaders q
      | none => slotAt e.maps p := by
  -- The oldest write is made final first, so the induction is on the writes before the newest one.
  induction log using List.reverseRecOn with
  | nil => rfl
  | append_singleton older r ih =>
    have holder := ih fun w hw => hpending w (List.mem_append_left _ hw)
    have hr : r.isFinished = false := hpending r (List.mem_append_right _ List.mem_cons_self)
    rw [commit_concat, newestAt?_concat]
    by_cases hp : r.place = p
    · subst hp
      rw [if_pos rfl, slotAt_commit_self hr ((contains_commit older e r.map).trans hopen),
        hasRepeatableReaders_commit]
    · rw [if_neg hp, slotAt_commit_ne hr fun h => hp h.symm, holder]

end UndoLog

/-! ## Records of a place -/

/-- The payload of the last record of a place. -/
def RedoRecord.lastAt? (records : List RedoRecord) (p : Place) : Option (Option Value) :=
  (records.reverse.find? fun r => r.map = p.map ∧ r.key = p.key).map RedoRecord.payload

theorem UndoLog.HasRecords.newestAt?_eq {log : UndoLog} {records : List RedoRecord}
    (h : log.HasRecords records) (p : Place) :
    UndoLog.newestAt? log p = RedoRecord.lastAt? records p := by
  have hplace : (fun r : UndoRecord => decide (r.place = p)) =
      (fun w : RedoRecord => decide (w.map = p.map ∧ w.key = p.key)) ∘ UndoRecord.toRedo := by
    funext r
    exact decide_eq_decide.mpr Place.ext_iff
  rw [UndoLog.newestAt?, RedoRecord.lastAt?, ← h.records, ← List.map_reverse, List.find?_map,
    Option.map_map, hplace]
  rfl

/-! ## The rows that are left -/

/-- Where rows are written over and nothing else changes, the size falls by the number of those that
were deleted. -/
theorem VersionMap.CountsRows.size_of_final {m m' : VersionMap} (hm : m.CountsRows)
    (hm' : m'.CountsRows) (written : Value → Option (Option Value)) (keep : Bool)
    (hrow : ∀ key, (written key).isSome = true → isLive (m.get? key) = true)
    (hslots : ∀ key, m'.get? key =
      match written key with
      | some q => finalSlot keep q
      | none => m.get? key) :
    ∃ keys : List Value, keys.Nodup ∧ (∀ key, key ∈ keys ↔ written key = some none) ∧
      m'.size + keys.length = m.size := by
  -- The rows that were counted are split into those that are deleted and those that stay.
  obtain ⟨rows, hnodup, hrows, hlength⟩ := hm.size
  let gone (key : Value) : Bool := written key = some none
  -- Those that stay are the rows of the new map.
  have hleft : HasLive m'.get? (rows.filter fun key => !gone key).length := by
    refine ⟨_, hnodup.filter _, fun key => ?_, rfl⟩
    rw [List.mem_filter, hrows, hslots]
    cases hlast : written key with
    | none => simp [gone, hlast]
    | some q =>
      have hbefore : isLive (m.get? key) = true := hrow key (by rw [hlast]; rfl)
      cases q <;> simp [gone, hlast, hbefore]
  refine ⟨rows.filter gone, hnodup.filter _, fun key => ?_, ?_⟩
  · -- What is deleted was a row, so that it is among those counted.
    rw [List.mem_filter, hrows, decide_eq_true_iff]
    exact ⟨And.right, fun h => ⟨hrow key (by rw [h]; rfl), h⟩⟩
  · rw [hm'.size.unique hleft, ← hlength, Nat.add_comm]
    exact (List.length_eq_length_filter_add gone).symm

namespace Engine

variable {e e' : Engine} {t : TxnId}

/-- A transaction under way has a row at each place of an open map that it has written: its own
version is there, and this is no committed tombstone even if it is a delete. -/
theorem isLive_of_written {r : OverlayMachine} (h : Agrees e r) {txn : LiveTransaction}
    (hl : e.live.get? t = some txn) {p : Place} (hopen : e.maps.contains p.map = true)
    (hwritten : (UndoLog.newestAt? txn.log p).isSome = true) :
    VersionMap.isLive (slotAt e.maps p) = true := by
  rcases h.live_cases t with ⟨hnone, -⟩ | ⟨txn', o, hl', ho, hlog⟩
  · rw [hl] at hnone
    cases hnone
  · obtain rfl := Option.some.inj (hl.symm.trans hl')
    rw [hlog, Overlay.newestAt?_records] at hwritten
    obtain ⟨q, hq⟩ := Option.isSome_iff_exists.mp hwritten
    rw [h.slots.held ((h.slots.isOpen p.map).trans hopen) ho hq]
    rfl

/-- A transaction reads what its place shows. -/
theorem read_of_slotAt {p : Place} (hlive : (e.live.get? t).isSome = true)
    (hopen : e.maps.contains p.map = true) :
    (read t p.map p.key).runOn e =
      (.ok ((slotAt e.maps p).bind fun v => v.visibleTo t), e) := by
  obtain ⟨txn, hl⟩ := Option.isSome_iff_exists.mp hlive
  obtain ⟨m, hm⟩ := Option.isSome_iff_exists.mp hopen
  rw [runOn_read, hl, hm, slotAt, hm, Option.bind_some]

/-- What a commit that succeeds leaves at each place of an open map. -/
theorem slotAt_of_commit (hrun : (TxnCall.commit t).action.runOn e = (.ok .done, e')) :
    ∃ txn, e.live.get? t = some txn ∧
      (∀ name, e'.maps.contains name = e.maps.contains name) ∧
      ((∀ r ∈ txn.log, r.isFinished = false) → ∀ p, e.maps.contains p.map = true →
        slotAt e'.maps p =
          match UndoLog.newestAt? txn.log p with
          | some q => finalSlot e.hasRepeatableReaders q
          | none => slotAt e.maps p) := by
  rw [TxnCall.action, runOn_map, runOn_commit] at hrun
  cases hl : e.live.get? t with
  | none =>
    -- Without the transaction nothing is committed.
    rw [hl] at hrun
    cases hrun
  | some txn =>
    obtain ⟨-, hreaders, -⟩ := finish_logWrites t txn.log e
    rw [hl] at hrun
    rcases hw : (logWrites t txn.log).runOn e with ⟨err | u, e₁⟩
    · simp only [hw] at hrun
      cases hrun
    · -- Logging has changed neither the maps nor the count of readers.
      have hmaps := maps_of_logWrites hw
      simp only [hw] at hrun hreaders
      obtain rfl := (Prod.mk.inj hrun).2
      refine ⟨txn, rfl, fun name => ?_, fun hpending p hopen => ?_⟩
      · rw [maps_committed, UndoLog.contains_commit, hmaps]
      · rw [maps_committed, UndoLog.slotAt_commit hpending (hmaps ▸ hopen), hmaps,
          hasRepeatableReaders, hreaders]
        rfl

end Engine

/-! ## The main statement -/

/-- An engine, with the records of the surviving writes and the unfinished transactions, both as the
calls and their answers tell. -/
structure TransactionWatch where
  engine : Engine
  records : RecordHistory
  unfinished : Unfinished

namespace TransactionWatch

/-- What is known of an engine on which no transaction is under way. -/
def start (e : Engine) : TransactionWatch := ⟨e, .blank, []⟩

/-- What is known after a request, during which certain calls of the device of the log fail. -/
def step (w : TransactionWatch) : DeviceFaults × EngineRequest → TransactionWatch
  | (faults, q) =>
    let e := w.engine.withFaults faults
    ⟨e.after q, w.records.step e q, w.unfinished.step e q⟩

def run (w : TransactionWatch) (requests : List (DeviceFaults × EngineRequest)) :
    TransactionWatch :=
  requests.foldl step w

/-- Whether the requests reuse neither names nor numbers too early. -/
def neverReuses (w : TransactionWatch) : List (DeviceFaults × EngineRequest) → Bool
  | [] => true
  | x :: rest => w.engine.reusesNothing x.2 && (w.step x).neverReuses rest

/-- What a commit is to leave. At each place that it deleted last is a committed tombstone if a
reader is unfinished, the transaction itself among them, and an empty slot if none is; nobody reads
anything there, and each map has one row less for each such key. -/
structure Buries (w : TransactionWatch) (t : TxnId) (e' : Engine) : Prop where
  slot : ∀ p, w.engine.maps.contains p.map = true →
    RedoRecord.lastAt? (w.records t) p = some none →
      slotAt e'.maps p = if w.unfinished.hasReader then some (.settled none) else none
  absent : ∀ p, w.engine.maps.contains p.map = true →
    RedoRecord.lastAt? (w.records t) p = some none →
      ∀ u, (e'.live.get? u).isSome = true →
        (Engine.read u p.map p.key).runOn e' = (.ok none, e')
  size : ∀ name m, w.engine.maps.get? name = some m →
    ∃ (m' : VersionMap) (keys : List Value), e'.maps.get? name = some m' ∧ keys.Nodup ∧
      (∀ key, key ∈ keys ↔ RedoRecord.lastAt? (w.records t) ⟨name, key⟩ = some none) ∧
      m'.size + keys.length = m.size

/-- What is known of an engine is so. -/
structure IsRight (w : TransactionWatch) : Prop where
  used : w.engine.IsWellUsed
  remembers : w.records.Remembers w.engine
  lists : w.unfinished.Lists w.engine

namespace IsRight

variable {w : TransactionWatch}

theorem start {e : Engine} (hused : e.IsWellUsed) (hidle : e.activeTransactions = 0) :
    (start e).IsRight where
  used := hused
  remembers t txn hl := by
    have hnone := Engine.live_of_idle hidle t
    rw [show e.live.get? t = some txn from hl] at hnone
    cases hnone
  lists := hused.lists_nil hidle

theorem withFaults (h : w.IsRight) (faults : DeviceFaults) :
    IsRight { w with engine := w.engine.withFaults faults } where
  used := h.used.elsewhere _ w.engine.catalog w.engine.dirty w.engine.metrics
  remembers := h.remembers
  lists := h.lists.of_live rfl rfl

theorem step (h : w.IsRight) {x : DeviceFaults × EngineRequest}
    (hx : w.engine.reusesNothing x.2 = true) : (w.step x).IsRight := by
  obtain ⟨faults, q⟩ := x
  obtain ⟨hused, hremembers, hlists⟩ := h.withFaults faults
  exact ⟨hused.after hx, hremembers.after q, hlists.after hx⟩

theorem run (h : w.IsRight) {requests : List (DeviceFaults × EngineRequest)}
    (hrun : w.neverReuses requests = true) : (w.run requests).IsRight := by
  induction requests generalizing w with
  | nil => exact h
  | cons x rest ih =>
    rw [neverReuses, Bool.and_eq_true] at hrun
    exact ih (h.step hrun.1) hrun.2

/-- The engine keeps tombstones exactly while a reader is unfinished. -/
theorem hasReader_eq (h : w.IsRight) :
    w.engine.hasRepeatableReaders = w.unfinished.hasReader := by
  rw [Unfinished.hasReader_eq, ← h.lists.readers]
  rfl

/-- A commit that succeeds buries what it deletes. -/
theorem commit (h : w.IsRight) {t : TxnId} {e' : Engine}
    (hrun : (TxnCall.commit t).action.runOn w.engine = (.ok .done, e')) : w.Buries t e' := by
  -- The slots are what the newest writes leave, under the readers that the watch counts.
  obtain ⟨txn, hl, hcontains, hslots⟩ := Engine.slotAt_of_commit hrun
  have hlog := h.remembers hl
  replace hslots := hslots hlog.pending
  simp only [hlog.newestAt?_eq, h.hasReader_eq] at hslots
  have hburied : ∀ p, w.engine.maps.contains p.map = true →
      RedoRecord.lastAt? (w.records t) p = some none →
        slotAt e'.maps p = finalSlot w.unfinished.hasReader none := by
    intro p hopen hdelete
    rw [hslots p hopen, hdelete]
  refine ⟨hburied, fun p hopen hdelete u hu => ?_, fun name m hm => ?_⟩
  · -- A reader sees nothing in a slot that has been deleted.
    rw [Engine.read_of_slotAt hu ((hcontains p.map).trans hopen), hburied p hopen hdelete,
      bind_visibleTo_finalSlot]
  · have hopen : w.engine.maps.contains name = true := by
      rw [Table.contains, hm]
      rfl
    obtain ⟨m', hm'⟩ := Option.isSome_iff_exists.mp ((hcontains name).trans hopen)
    -- Both counts are right: the one before by the run so far, the one after by one more request.
    obtain ⟨⟨r, hagrees⟩, -, hcounted⟩ := h.used.keepsCount
    have hafter : w.engine.after (.call (.commit t)) = e' := congrArg Prod.snd hrun
    have hcounted' : AllCounted e'.maps := hafter ▸ (h.used.after rfl).keepsCount.counted
    have hslot : ∀ key, slotAt w.engine.maps ⟨name, key⟩ = m.get? key := fun key => by
      rw [slotAt, hm, Option.bind_some]
    have hslot' : ∀ key, slotAt e'.maps ⟨name, key⟩ = m'.get? key := fun key => by
      rw [slotAt, hm', Option.bind_some]
    -- The size goes down by the deletes, each of which was made to a row.
    obtain ⟨keys, hkeys⟩ := (hcounted hm).size_of_final (hcounted' hm')
      (fun key => RedoRecord.lastAt? (w.records t) ⟨name, key⟩) w.unfinished.hasReader
      (fun key hwritten => by
        rw [← hlog.newestAt?_eq] at hwritten
        rw [← hslot]
        exact Engine.isLive_of_written hagrees hl hopen hwritten)
      (fun key => by rw [← hslot', ← hslot, hslots ⟨name, key⟩ hopen])
    exact ⟨m', keys, hm', hkeys⟩

end IsRight

/-- After any run of requests and faults of the log, the engine counts the unfinished transactions
that must read the same value each time, and a commit that succeeds then buries what it deletes. -/
theorem counts_readers_and_buries {e : Engine} (hused : e.IsWellUsed)
    (hidle : e.activeTransactions = 0) {requests : List (DeviceFaults × EngineRequest)}
    (hreuse : (start e).neverReuses requests = true) :
    let w := (start e).run requests
    w.engine.repeatableReaders = w.unfinished.readers ∧ (w.unfinished.map Prod.fst).Nodup ∧
      (∀ t, (w.engine.live.get? t).isSome = true ↔ t ∈ w.unfinished.map Prod.fst) ∧
      ∀ t faults e',
        (TxnCall.commit t).action.runOn (w.engine.withFaults faults) = (.ok .done, e') →
          w.Buries t e' := by
  intro w
  have hright : w.IsRight := (IsRight.start hused hidle).run hreuse
  refine ⟨hright.lists.readers, hright.lists.nodup, hright.lists.isSome_iff,
    fun t faults e' hrun => ?_⟩
  obtain ⟨hslot, habsent, hsize⟩ := (hright.withFaults faults).commit hrun
  exact ⟨hslot, habsent, hsize⟩

/-- One reader is counted out by a commit that fails and another one is dropped, so that a single
one is left under which a key is deleted, put and deleted again; the next delete of a key is
committed when no reader is left. -/
theorem counts_readers_and_buries_of_failed_commit :
    let quiet (c : TxnCall) : DeviceFaults × EngineRequest := (.none, .call c)
    let row (n : Int64) : Place := ⟨"m", .int n⟩
    let first : List (DeviceFaults × EngineRequest) :=
      [(.none, .createMap "m" .int64 .text), quiet (.begin none),
        quiet (.put ⟨1⟩ (row 1) (.text "a")), quiet (.put ⟨1⟩ (row 2) (.text "b")),
        quiet (.commit ⟨1⟩), quiet (.begin (some .serializable)),
        quiet (.put ⟨2⟩ (row 3) (.int 5)), quiet (.begin (some .repeatableRead)),
        quiet (.begin (some .repeatableRead)), quiet (.commit ⟨2⟩), quiet (.drop ⟨3⟩),
        quiet (.begin none), quiet (.delete ⟨5⟩ (row 1)), quiet (.put ⟨5⟩ (row 1) (.text "c")),
        quiet (.delete ⟨5⟩ (row 1))]
    let second : List (DeviceFaults × EngineRequest) :=
      [quiet (.commit ⟨5⟩), quiet (.rollback ⟨4⟩), quiet (.begin none),
        quiet (.delete ⟨6⟩ (row 2))]
    ∃ e, Engine.openWith .basic .inMemory none none = .ok e ∧
      (start e).neverReuses (first ++ second) = true ∧
      let w := (start e).run first
      let w' := (start e).run (first ++ second)
      w.engine.repeatableReaders = 1 ∧ w'.engine.repeatableReaders = 0 ∧
        (∃ e', (TxnCall.commit ⟨5⟩).action.runOn (w.engine.withFaults .none) = (.ok .done, e') ∧
          slotAt e'.maps (row 1) = some (.settled none)) ∧
        ∃ e', (TxnCall.commit ⟨6⟩).action.runOn (w'.engine.withFaults .none) = (.ok .done, e') ∧
          slotAt e'.maps (row 2) = none := by
  intro quiet row first second
  let e := Engine.inMemory
  have hopen : Engine.openWith .basic .inMemory none none = .ok e := rfl
  have hused : e.IsWellUsed := .opened hopen
  have hidle : e.activeTransactions = 0 := rfl
  have hreuse : (start e).neverReuses first = true := by decide +kernel
  have hreuse' : (start e).neverReuses (first ++ second) = true := by decide +kernel
  let w := (start e).run first
  let w' := (start e).run (first ++ second)
  let x := (TxnCall.commit ⟨5⟩).action.runOn (w.engine.withFaults .none)
  let x' := (TxnCall.commit ⟨6⟩).action.runOn (w'.engine.withFaults .none)
  have hdone : x.1 = .ok .done := by decide +kernel
  have hdone' : x'.1 = .ok .done := by decide +kernel
  have hrun : x = (.ok .done, x.2) := by rw [← hdone]
  have hrun' : x' = (.ok .done, x'.2) := by rw [← hdone']
  obtain ⟨hcount, -, -, hcommit⟩ := counts_readers_and_buries hused hidle hreuse
  obtain ⟨hcount', -, -, hcommit'⟩ := counts_readers_and_buries hused hidle hreuse'
  have hdeleted : w.engine.maps.contains "m" = true ∧
      RedoRecord.lastAt? (w.records ⟨5⟩) (row 1) = some none := by decide +kernel
  have hdeleted' : w'.engine.maps.contains "m" = true ∧
      RedoRecord.lastAt? (w'.records ⟨6⟩) (row 2) = some none := by decide +kernel
  have hslot := (hcommit _ _ _ hrun).slot (row 1) hdeleted.1 hdeleted.2
  have hslot' := (hcommit' _ _ _ hrun').slot (row 2) hdeleted'.1 hdeleted'.2
  have hreader : w.unfinished.readers = 1 ∧ w.unfinished.hasReader = true := by decide +kernel
  have hreader' : w'.unfinished.readers = 0 ∧ w'.unfinished.hasReader = false := by
    decide +kernel
  rw [hreader.1] at hcount
  rw [hreader.2, if_pos rfl] at hslot
  rw [hreader'.1] at hcount'
  rw [hreader'.2, if_neg Bool.false_ne_true] at hslot'
  exact ⟨e, hopen, hreuse', hcount, hcount', ⟨x.2, hrun, hslot⟩, x'.2, hrun', hslot'⟩

end TransactionWatch

end TxnStore
