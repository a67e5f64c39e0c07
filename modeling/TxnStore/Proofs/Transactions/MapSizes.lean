import TxnStore.Proofs.Recovery.Replay
import TxnStore.Proofs.Transactions.Reachable

/-!
# The sizes of maps in use

The count of a map is adjusted in four ways: when a write is made, made final or undone, and when a
record is replayed. Each of them is right for itself only because of what the others have left in the
slot. So the count is followed through all that an engine can be asked for, replaying included: it is
the number of the slots that are no committed tombstones at any time, and once all transactions are
over, it is the number of the rows that anyone can read.
-/

namespace TxnStore

open TxnStore.Action

/-! ## Engines on which nothing was written -/

/-- No transaction has written anything, and all maps count their rows. -/
structure Engine.IsTidy (e : Engine) : Prop where
  quiet : e.IsQuiet
  counted : AllCounted e.maps

namespace Engine.IsTidy

variable {e e' : Engine}

/-- A map with committed versions may be put in the place of another one, or beside the others. -/
theorem setMap (h : e.IsTidy) {name : String} {m : VersionMap} (hcounts : m.CountsRows)
    (hsettled : ∀ {key v}, m.get? key = some v → v = .settled v.payload)
    (hmaps : e'.maps = e.maps.insert name m) (hlive : e'.live = e.live) : e'.IsTidy where
  quiet :=
    { settled := by
        intro other m' key v hm hv
        -- The slots of the map are given, those of the others are as before.
        rw [hmaps, Table.get?_insert] at hm
        split at hm
        · cases hm
          exact hsettled hv
        · exact h.quiet.settled hm hv
      unwritten := fun hl => h.quiet.unwritten (hlive ▸ hl) }
  counted := by
    rw [hmaps]
    exact h.counted.insert name hcounts

/-- An engine is tidy once it was opened. -/
theorem of_openWith {settings : Settings} {catalog : Catalog} {log : Option RedoLog}
    {metrics : Option Metrics} (hrun : Engine.openWith settings catalog log metrics = .ok e) :
    e.IsTidy := by
  refine Engine.openWith_keeps (P := Engine.IsTidy) ⟨?_, ?_⟩ ?_ hrun
  · exact Engine.isQuiet_of_bare rfl fun _ => rfl
  · intro name m hm
    cases hm
  · intro e name keyCodec valueCodec nextMapId h
    have hempty : (VersionMap.empty name keyCodec valueCodec).CountsRows :=
      VersionMap.countsRows_of_no_slot (fun _ => rfl) rfl
    exact h.setMap hempty (fun hv => by cases hv) rfl rfl

theorem replayRecord (h : e.IsTidy) (r : RawRecord) :
    ((Engine.replayRecord r).runOn e).2.IsTidy := by
  rcases Engine.replayRecord_cases e r with
    -- Only a record that is read and whose map is open changes anything.
    ⟨err, hrun⟩ | hrun | ⟨m, key, payload, hm, -, hrun⟩
  · rw [hrun]
    exact h
  · rw [hrun]
    exact h
  · rw [hrun]
    have hcounts : (replayInto m key payload).CountsRows := by
      cases payload with
      | none => exact (h.counted hm).remove key
      | some q => exact (h.counted hm).put key rfl
    -- A record is put as a committed version, or it removes its key.
    refine h.setMap hcounts ?_ rfl rfl
    intro j v hv
    rw [get?_replayInto] at hv
    split at hv
    · obtain ⟨q, -, rfl⟩ := Option.map_eq_some_iff.mp hv
      rfl
    · exact h.quiet.settled hm hv

/-- An engine is tidy once it has replayed its log, however far it got. -/
theorem recover (h : e.IsTidy) : (Engine.recover.runOn e).2.IsTidy :=
  Engine.recover_keeps (fun _ r h => h.replayRecord r) h

end Engine.IsTidy

/-! ## Engines that are used well -/

namespace Engine

/-- Whether a request takes no name under which an unfinished transaction has a write, and no number
of a transaction that is under way. Only names of maps that were dropped are ever in question, since
a transaction writes to maps that are there. -/
def reusesNothing (e : Engine) (q : EngineRequest) : Bool :=
  e.reusesNoName q && !(q.event.isBegin && e.live.contains e.nextTxn)

/-- Whether this is so for requests one after the other. -/
def neverReuses (e : Engine) : List EngineRequest → Bool
  | [] => true
  | q :: rest => e.reusesNothing q && (e.after q).neverReuses rest

/-- An engine that was opened and is in use since. Its maps are changed by requests, which reuse
neither names nor numbers too early, and by replays of the log while no transaction is under way. -/
inductive IsWellUsed : Engine → Prop where
  | opened {settings : Settings} {catalog : Catalog} {log : Option RedoLog}
      {metrics : Option Metrics} {e : Engine}
      (hopen : openWith settings catalog log metrics = .ok e) : IsWellUsed e
  | after {e : Engine} (h : IsWellUsed e) {q : EngineRequest} (hq : e.reusesNothing q = true) :
      IsWellUsed (e.after q)
  | recovered {e : Engine} (h : IsWellUsed e) (hidle : e.activeTransactions = 0) :
      IsWellUsed (recover.runOn e).2
  /-- What is no map and no transaction may change from elsewhere, the device of the log and what is
  on it among the rest. -/
  | elsewhere {e : Engine} (h : IsWellUsed e) (log : Option RedoLog) (catalog : Catalog)
      (dirty : Table String UInt64) (metrics : Option Metrics) :
      IsWellUsed { e with log, catalog, dirty, metrics }

theorem IsWellUsed.run {e : Engine} (h : e.IsWellUsed) (requests : List EngineRequest)
    (hrun : e.neverReuses requests = true) : (requests.foldl Engine.after e).IsWellUsed := by
  induction requests generalizing e with
  | nil => exact h
  | cons q rest ih =>
    rw [neverReuses, Bool.and_eq_true] at hrun
    exact ih (h.after hrun.1) hrun.2

end Engine

/-! ## The invariant -/

/-- A number that no transaction under way has can be given to the next one. -/
theorem Agrees.hasNumbers_one {e : Engine} {r : OverlayMachine} (h : Agrees e r)
    (hfree : e.live.get? e.nextTxn = none) : r.HasNumbers 1 := by
  refine ⟨by decide, fun i hi => ?_⟩
  obtain rfl : i = 0 := Nat.lt_one_iff.mp hi
  have hzero : (⟨r.nextTxn.val + UInt64.ofNat 0⟩ : TxnId) = e.nextTxn := by
    rw [← h.nextTxn]
    simp
  -- The one number that counts is the next, under which no transaction is live.
  rw [hzero]
  rcases h.live_cases e.nextTxn with ⟨-, ho⟩ | ⟨txn, -, hl, -⟩
  · exact ho
  · rw [hfree] at hl
    cases hl

namespace Engine

/-- All maps count their rows, and they will go on doing so: the slots and the logs agree with some
machine of overlays and with some history of writes. -/
structure KeepsCount (e : Engine) : Prop where
  agrees : ∃ r : OverlayMachine, Agrees e r
  remembers : ∃ h : WriteHistory, h.Remembers e
  counted : AllCounted e.maps

variable {e : Engine}

theorem live_of_idle (hidle : e.activeTransactions = 0) (t : TxnId) : e.live.get? t = none := by
  have hnil : e.live.toList = [] := List.eq_nil_of_length_eq_zero hidle
  rw [Table.get?, hnil]
  rfl

theorem IsTidy.keepsCount (h : e.IsTidy) : e.KeepsCount where
  agrees := ⟨_, h.quiet.agrees⟩
  remembers := by
    refine ⟨.blank, fun t txn hl => ?_⟩
    rw [h.quiet.unwritten hl]
    exact .nil t
  counted := h.counted

namespace KeepsCount

/-- Once all transactions are over, every slot holds a committed version. -/
theorem isTidy (h : e.KeepsCount) (hidle : e.activeTransactions = 0) : e.IsTidy where
  quiet :=
    { settled := by
        intro name m key v hm hv
        obtain ⟨r, hagrees⟩ := h.agrees
        have hopen : r.isOpen name = true := by
          rw [hagrees.slots.isOpen, Table.contains, hm]
          rfl
        -- Nobody is left who could hold a place.
        have hfree : ∀ u, r.holds u ⟨name, key⟩ = false := by
          intro u
          rcases hagrees.live_cases u with ⟨-, ho⟩ | ⟨txn, -, hl, -⟩
          · rw [OverlayMachine.holds, ho]
            rfl
          · rw [live_of_idle hidle u] at hl
            cases hl
        have hslot : slotAt e.maps ⟨name, key⟩ = some v := by
          rw [slotAt, hm, Option.bind_some, hv]
        -- The slot is settled, since there is a version in it.
        rcases hagrees.slots.free hopen hfree with hsettled | ⟨hnone, -⟩
        · rw [hslot] at hsettled
          cases hsettled
          rfl
        · rw [hslot] at hnone
          cases hnone
      unwritten := fun {t txn} hl => by
        rw [live_of_idle hidle t] at hl
        cases hl }
  counted := h.counted

theorem after (h : e.KeepsCount) {q : EngineRequest} (hq : e.reusesNothing q = true) :
    (e.after q).KeepsCount := by
  obtain ⟨r, hagrees⟩ := h.agrees
  obtain ⟨writes, hremembers⟩ := h.remembers
  obtain ⟨hname, hnumber⟩ := Bool.and_eq_true_iff.mp hq
  -- Which numbers are free after this request does not matter, since the next one is asked again.
  have hnew : r.HasNumbers (0 + if q.event.isBegin then 1 else 0) := by
    cases hbegin : q.event.isBegin with
    | false => exact ⟨Nat.zero_le _, fun i hi => absurd hi (Nat.not_lt_zero i)⟩
    | true =>
      apply hagrees.hasNumbers_one
      simpa [hbegin, Table.contains] using hnumber
  obtain ⟨r', hagrees', -⟩ := hagrees.after hname hnew
  exact ⟨⟨r', hagrees'⟩, ⟨_, hremembers.after q⟩, hagrees.counted_after hremembers h.counted q⟩

end KeepsCount

/-- The count is kept in all engines that are used well. -/
theorem IsWellUsed.keepsCount (h : e.IsWellUsed) : e.KeepsCount := by
  -- A replay puts what it reads over the slots as they are, and so it needs them to be settled.
  induction h with
  | opened hopen => exact (IsTidy.of_openWith hopen).keepsCount
  | after _ hq ih => exact ih.after hq
  | recovered _ hidle ih => exact (ih.isTidy hidle).recover.keepsCount
  | elsewhere _ log catalog dirty metrics ih =>
    obtain ⟨⟨r, hagrees⟩, ⟨writes, hremembers⟩, hcounted⟩ := ih
    exact ⟨⟨r, hagrees.of_sameWork ⟨rfl, rfl, rfl⟩⟩, ⟨writes, hremembers⟩, hcounted⟩

end Engine

/-! ## The main statement -/

/-- So many keys have a committed payload in their slot. -/
def VersionMap.HasCommitted (m : VersionMap) (n : Nat) : Prop :=
  ∃ keys : List Value, keys.Nodup ∧
    (∀ key, key ∈ keys ↔ ∃ v q, m.get? key = some v ∧ v.committed = true ∧ v.payload = some q) ∧
    keys.length = n

/-- In an engine that is used well, the count of a map is the number of its keys whose slot is no
committed tombstone, and so it is never negative. While no transaction is under way, the size of the
map is the number of its keys that have a committed payload. -/
theorem Engine.IsWellUsed.size_counts_rows {e : Engine} (h : e.IsWellUsed) {name : String}
    {m : VersionMap} (hm : e.maps.get? name = some m) :
    0 ≤ m.rows ∧ m.rows = m.size ∧ VersionMap.HasLive m.get? m.size ∧
      (e.activeTransactions = 0 → m.HasCommitted m.size) := by
  have hkeeps := h.keepsCount
  -- The count is the number of the rows, which is never negative.
  obtain ⟨n, hlive, hrows⟩ := hkeeps.counted hm
  have hsize : m.size = n := by
    rw [VersionMap.size, hrows]
    rfl
  refine ⟨hrows ▸ Int.natCast_nonneg n, hsize ▸ hrows, hsize ▸ hlive, fun hidle => ?_⟩
  -- Where no transaction is under way, all slots are settled.
  have hquiet := (hkeeps.isTidy hidle).quiet
  obtain ⟨keys, hnodup, hkeys, hlength⟩ := hlive
  refine ⟨keys, hnodup, fun key => ?_, hlength.trans hsize.symm⟩
  rw [hkeys]
  cases hv : m.get? key with
  | none => simp [VersionMap.isLive]
  | some v =>
    -- What is there is committed, so that it is a tombstone or has a payload.
    have hsettled : v = .settled v.payload := hquiet.settled hm hv
    rw [hsettled]
    cases v.payload <;> simp [VersionMap.isLive, Version.settled, Version.isTombstone]

/-- A row is committed and replayed. It is deleted under a transaction that must be able to read
again, and is put again over its tombstone; another delete is undone by going back to a savepoint,
and the delete of a second row leaves a tombstone for good. -/
theorem Engine.IsWellUsed.size_counts_rows_of_tombstones :
    let row (n : Int64) : Place := ⟨"m", .int n⟩
    let first : List EngineRequest :=
      [.createMap "m" .int64 .text, .call (.begin none), .call (.put ⟨1⟩ (row 1) (.text "a")),
        .call (.commit ⟨1⟩)]
    let second : List EngineRequest :=
      [.call (.begin (some .repeatableRead)), .call (.begin none), .call (.delete ⟨3⟩ (row 1)),
        .call (.commit ⟨3⟩), .call (.begin none), .call (.put ⟨4⟩ (row 1) (.text "c")),
        .call (.put ⟨4⟩ (row 3) (.text "d")), .call (.delete ⟨4⟩ (row 1)),
        .call (.rollbackTo ⟨4⟩ 2), .call (.commit ⟨4⟩), .call (.begin none),
        .call (.delete ⟨5⟩ (row 3)), .call (.commit ⟨5⟩), .call (.commit ⟨2⟩)]
    ∃ log device e, RedoLog.openOn (.basic 7 .never) (Device.ofBytes []) = (.ok log, device) ∧
      Engine.openWith .basic .inMemory (some log) none = .ok e ∧
      let e₁ := first.foldl Engine.after e
      let e₂ := (Engine.recover.runOn e₁).2
      let e₃ := second.foldl Engine.after e₂
      e.neverReuses first = true ∧ e₁.activeTransactions = 0 ∧ e₂.neverReuses second = true ∧
        e₃.activeTransactions = 0 ∧
        ∃ m, e₃.maps.get? "m" = some m ∧ m.slotCount = 2 ∧ m.size = 1 ∧ m.HasCommitted 1 := by
  intro row first second
  let log := RedoLog.fresh (.basic 7 .never)
  have hlog : RedoLog.openOn (.basic 7 .never) (Device.ofBytes []) = (.ok log, log.device) :=
    RedoLog.openOn_fresh (.basic 7 .never)
  let e := Engine.bare .basic .inMemory (some log) none
  have hopen : Engine.openWith .basic .inMemory (some log) none = .ok e := rfl
  let e₁ := first.foldl Engine.after e
  let e₂ := (Engine.recover.runOn e₁).2
  let e₃ := second.foldl Engine.after e₂
  have hfirst : e.neverReuses first = true := by decide +kernel
  have hidle₁ : e₁.activeTransactions = 0 := by decide +kernel
  have hsecond : e₂.neverReuses second = true := by decide +kernel
  have hidle₃ : e₃.activeTransactions = 0 := by decide +kernel
  -- The whole life of the engine consists of calls whose numbers do not come round, and a replay
  -- while no transaction is under way.
  have hused : e₃.IsWellUsed :=
    (((Engine.IsWellUsed.opened hopen).run first hfirst).recovered hidle₁).run second hsecond
  obtain ⟨m, hm, hcounts⟩ :
      ∃ m, e₃.maps.get? "m" = some m ∧ (m.slotCount, m.size) = (2, 1) := by
    rw [← Option.map_eq_some_iff]
    decide +kernel
  obtain ⟨hslots, hsize⟩ := Prod.mk.inj hcounts
  obtain ⟨-, -, -, hcommitted⟩ := Engine.IsWellUsed.size_counts_rows hused hm
  exact ⟨log, _, e, hlog, hopen, hfirst, hidle₁, hsecond, hidle₃, m, hm, hslots, hsize,
    hsize ▸ hcommitted hidle₃⟩

end TxnStore
