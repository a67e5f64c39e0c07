import TxnStore.Engine.Replay
import TxnStore.Proofs.Transactions.WriteHistories

/-!
# Engines in use

The engines that come of one that was opened: requests are made to it, its log is replayed, and its
log, catalog, estimates and counts are worked on from elsewhere. In all of them a committed delete
leaves nothing in its slot, or a tombstone that nobody owns, and no record of a write keeps a
tombstone.
-/

namespace TxnStore

open TxnStore.Action

namespace Engine

/-! ## Inductions over opening and replaying -/

variable {P : Engine → Prop}

/-- Opening takes in maps without slots, one after the other. -/
theorem openWith_keeps {settings : Settings} {catalog : Catalog} {log : Option RedoLog}
    {metrics : Option Metrics} {e : Engine} (hbare : P (bare settings catalog log metrics))
    (hmap : ∀ e name keyCodec valueCodec nextMapId, P e → P { e with
      nextMapId, maps := e.maps.insert name (VersionMap.empty name keyCodec valueCodec) })
    (hrun : openWith settings catalog log metrics = .ok e) : P e := by
  suffices hentries : ∀ (entries : List CatalogEntry) (e₀ : Engine), P e₀ →
      restoreMaps e₀ entries = .ok e → P e by
    rw [openWith] at hrun
    cases hsettings : settings.validate with
    | error err =>
      rw [hsettings] at hrun
      cases hrun
    | ok u =>
      rw [hsettings] at hrun
      exact hentries _ _ hbare hrun
  intro entries
  induction entries with
  | nil =>
    intro e₀ h hrun
    cases hrun
    exact h
  | cons entry rest ih =>
    intro e₀ h hrun
    rw [restoreMaps] at hrun
    split at hrun
    · exact ih e₀ h hrun
    · split at hrun
      · next d _ _ e₁ hrestored =>
        -- The codecs of the entry are known, and its name is free.
        rw [restoreMap] at hrestored
        cases hkey : resolveCodec d.keyCodec with
        | error err =>
          rw [hkey] at hrestored
          cases hrestored
        | ok keyCodec =>
          cases hvalue : resolveCodec d.valueCodec with
          | error err =>
            rw [hkey, hvalue] at hrestored
            cases hrestored
          | ok valueCodec =>
            rw [hkey, hvalue] at hrestored
            simp only [bind, Except.bind, insertMap] at hrestored
            split at hrestored
            · cases hrestored
            · cases hrestored
              exact ih _ (hmap e₀ entry.name keyCodec valueCodec _ h) hrun
      · cases hrun

/-- A record cannot be read, it is passed over, or it is put into its map. -/
theorem replayRecord_cases (e : Engine) (r : RawRecord) :
    (∃ err, (replayRecord r).runOn e = (.error err, e)) ∨
      (replayRecord r).runOn e = (.ok false, e) ∨
      ∃ m key payload, e.maps.get? r.map = some m ∧
        r.decode m.keyCodec m.valueCodec = .ok (key, payload) ∧ (replayRecord r).runOn e =
          (.ok true, { e with maps := e.maps.insert r.map (replayInto m key payload) }) := by
  rw [replayRecord, runOn_bind, runOn_get]
  cases hm : e.maps.get? r.map with
  | none =>
    simp only [hm]
    exact .inr (.inl rfl)
  | some m =>
    rcases hdecode : r.decode m.keyCodec m.valueCodec with err | ⟨key, payload⟩
    · simp only [hm, hdecode]
      exact .inl ⟨_, rfl⟩
    · simp only [hm, hdecode]
      exact .inr (.inr ⟨m, key, payload, rfl, hdecode, rfl⟩)

/-- Replaying, however far it gets, replays records one after the other. -/
theorem recover_keeps (hrecord : ∀ e r, P e → P ((replayRecord r).runOn e).2) {e : Engine}
    (h : P e) : P (recover.runOn e).2 := by
  -- The statistics and the scan vary along the way, but only the engine matters.
  have hrecords : ∀ (rs : List RawRecord) (stats : ReplayStats) (e : Engine), P e →
      P ((replayRecords stats rs).runOn e).2 := by
    intro rs
    induction rs with
    | nil => exact fun _ _ h => h
    | cons r rest ih =>
      intro stats e h
      have hfirst := hrecord e r h
      rw [replayRecords, runOn_bind]
      rcases hr : (replayRecord r).runOn e with ⟨err | known, e₁⟩
      · rw [hr] at hfirst
        exact hfirst
      · rw [hr] at hfirst
        cases known <;> exact ih _ _ hfirst
  have hframes : ∀ (log : RedoLog) (bound : Nat) (stats : ReplayStats) (scan : LogScan)
      (e : Engine), P e → P ((replayFrames log bound stats scan).runOn e).2 := by
    intro log bound
    induction bound with
    | zero => exact fun _ _ _ h => h
    | succ bound ih =>
      intro stats scan e h
      rw [replayFrames, runOn_bind, nextFrame, runOn_ofExcept]
      rcases (scan.next.runOn log.device).1 with err | ⟨_ | frame, scan'⟩
      · exact h
      · exact h
      · simp only [runOn_bind, runOn_ofExcept]
        cases frame.records with
        | error err => exact h
        | ok records =>
          have hframe := hrecords records stats e h
          simp only
          rcases hr : (replayRecords stats records).runOn e with ⟨err | stats', e₁⟩
          · rw [hr] at hframe
            exact hframe
          · rw [hr] at hframe
            exact ih _ _ _ hframe
  rw [recover, runOn_bind, runOn_get]
  simp only
  cases e.log with
  | none => exact h
  | some log => exact hframes log _ _ _ e h

/-- Replaying changes maps only. -/
theorem recover_eq (e : Engine) : ∃ maps, (recover.runOn e).2 = { e with maps } := by
  refine recover_keeps (P := fun e' => ∃ maps, e' = { e with maps }) ?_ ⟨e.maps, rfl⟩
  rintro _ r ⟨maps, rfl⟩
  rcases replayRecord_cases { e with maps } r with
    ⟨err, hrun⟩ | hrun | ⟨m, key, payload, -, -, hrun⟩
  · exact ⟨maps, congrArg Prod.snd hrun⟩
  · exact ⟨maps, congrArg Prod.snd hrun⟩
  · exact ⟨_, congrArg Prod.snd hrun⟩

end Engine

/-! ## Engines that come of one that was opened -/

/-- An engine that was opened and is in use since. -/
inductive Engine.IsReachable : Engine → Prop where
  | opened {settings : Settings} {catalog : Catalog} {log : Option RedoLog}
      {metrics : Option Metrics} {e : Engine}
      (hopen : Engine.openWith settings catalog log metrics = .ok e) : IsReachable e
  | after {e : Engine} (h : IsReachable e) (q : EngineRequest) : IsReachable (e.after q)
  | recovered {e : Engine} (h : IsReachable e) : IsReachable (Engine.recover.runOn e).2
  /-- The log may be synced, reset or put on a device that fails, and the catalog, the estimates and
  the counts may change as well. -/
  | elsewhere {e : Engine} (h : IsReachable e) (log : Option RedoLog) (catalog : Catalog)
      (dirty : Table String UInt64) (metrics : Option Metrics) :
      IsReachable { e with log, catalog, dirty, metrics }

/-! ## Plain tombstones -/

/-- A tombstone that nobody owns and behind which nothing lies, or no tombstone. -/
def Version.IsPlain (v : Version) : Prop := v.isTombstone = true → v = .settled none

theorem Version.IsPlain.of_not_isTombstone {v : Version} (h : v.isTombstone = false) : v.IsPlain :=
  fun htomb => absurd htomb (by simp [h])

theorem Version.isPlain_commit (v : Version) : v.commit.IsPlain := by
  intro htomb
  have hnone : v.payload = none := by simpa [isTombstone, commit] using htomb
  rw [commit, settled, hnone]

/-- All tombstones of a map are plain. -/
def VersionMap.IsPlain (m : VersionMap) : Prop := ∀ ⦃key v⦄, m.get? key = some v → v.IsPlain

namespace VersionMap.IsPlain

variable {m : VersionMap} {v : Version}

theorem empty (name : String) (keyCodec valueCodec : Codec) :
    (VersionMap.empty name keyCodec valueCodec).IsPlain := by
  intro key v hv
  cases hv

theorem put (h : m.IsPlain) (key : Value) (hv : v.IsPlain) : (m.put key v).2.IsPlain := by
  intro j w hw
  rw [get?_put] at hw
  split at hw
  · cases hw
    exact hv
  · exact h hw

theorem remove (h : m.IsPlain) (key : Value) : (m.remove key).2.IsPlain := by
  intro j w hw
  rw [get?_remove] at hw
  split at hw
  · cases hw
  · exact h hw

theorem commitTo (h : m.IsPlain) (key : Value) (v : Version) (keep : Bool) :
    (UndoRecord.commitTo m key v.commit keep).IsPlain := by
  unfold UndoRecord.commitTo
  split
  · exact h.put key v.isPlain_commit
  · split
    · exact IsPlain.put (m := m.dropRow) h key v.isPlain_commit
    · exact h.remove key

theorem revertIn (h : m.IsPlain) {r : UndoRecord}
    (hold : ∀ old, r.old? = some old → old.isTombstone = false) : (r.revertIn m).IsPlain := by
  unfold UndoRecord.revertIn
  cases hr : r.old? with
  | none => exact h.remove r.key
  | some old => exact h.put r.key (.of_not_isTombstone (hold old hr))

theorem replayInto (h : m.IsPlain) (key : Value) (payload : Option Value) :
    (Engine.replayInto m key payload).IsPlain := by
  cases payload with
  | none => exact h.remove key
  | some q => exact h.put key (.of_not_isTombstone rfl)

end VersionMap.IsPlain

/-- All tombstones of all maps are plain. -/
def AllPlain (maps : Table String VersionMap) : Prop :=
  ∀ ⦃name m⦄, maps.get? name = some m → m.IsPlain

namespace AllPlain

variable {maps : Table String VersionMap} {e : Engine}

theorem insert (h : AllPlain maps) (name : String) {m : VersionMap} (hm : m.IsPlain) :
    AllPlain (maps.insert name m) := by
  intro other m' hm'
  rw [Table.get?_insert] at hm'
  split at hm'
  · cases hm'
    exact hm
  · exact h hm'

theorem erase (h : AllPlain maps) (name : String) : AllPlain (maps.erase name) := by
  intro other m' hm'
  rw [Table.get?_erase] at hm'
  split at hm'
  · cases hm'
  · exact h hm'

theorem commit (log : UndoLog) (h : AllPlain e.maps) : AllPlain (UndoLog.commit log e).2.maps := by
  -- Each record is made final in the engine that the older ones have left.
  induction log generalizing e with
  | nil => exact h
  | cons r rest ih =>
    apply ih (e := (r.commit e).2)
    unfold UndoRecord.commit
    -- A finished record and one of a closed map change nothing.
    split
    · exact h
    · cases hm : e.maps.get? r.map with
      | none => exact h
      | some m => exact h.insert r.map ((h hm).commitTo r.key r.written _)

theorem revertAll (rs : List UndoRecord) (h : AllPlain e.maps)
    (hold : ∀ r ∈ rs, ∀ old, r.old? = some old → old.isTombstone = false) :
    AllPlain (UndoLog.revertAll rs e).2.maps := by
  induction rs generalizing e with
  | nil => exact h
  | cons r rest ih =>
    -- What a record brings back is no tombstone, by the assumption on the records.
    refine ih (e := (r.rollback e).2) ?_ fun s hs => hold s (List.mem_cons_of_mem _ hs)
    unfold UndoRecord.rollback
    split
    · exact h
    · cases hm : e.maps.get? r.map with
      | none => exact h
      | some m => exact h.insert r.map ((h hm).revertIn (hold r List.mem_cons_self))

end AllPlain

/-- No record of a log keeps a tombstone. -/
def UndoLog.IsPlain (log : UndoLog) : Prop :=
  ∀ r ∈ log, ∀ old, r.old? = some old → old.isTombstone = false

theorem UndoLog.IsPlain.take {log : UndoLog} (h : log.IsPlain) (n : Nat) :
    UndoLog.IsPlain (log.take n) := fun r hr => h r (List.mem_of_mem_take hr)

theorem UndoLog.IsPlain.drop {log : UndoLog} (h : log.IsPlain) (n : Nat) :
    UndoLog.IsPlain (log.drop n) := fun r hr => h r (List.mem_of_mem_drop hr)

theorem UndoLog.IsPlain.reverse {log : UndoLog} (h : log.IsPlain) :
    UndoLog.IsPlain log.reverse := fun r hr => h r (List.mem_reverse.mp hr)

/-- The record of a write keeps no tombstone. -/
theorem UndoLog.IsPlain.concat {log : UndoLog} (h : log.IsPlain) (map : String) (key : Value)
    (slot : Option Version) (v : Version) :
    UndoLog.IsPlain (log ++ [UndoRecord.ofWrite map key (withoutTombstone slot) v]) := by
  intro r hr old hold
  rcases List.mem_append.mp hr with hr | hr
  · exact h r hr old hold
  · rw [List.mem_singleton.mp hr, UndoRecord.old?_ofWrite] at hold
    simpa using (Option.filter_eq_some_iff.mp hold).2

/-- The tombstones in the maps are plain, and no log keeps any. -/
structure Engine.IsPlain (e : Engine) : Prop where
  maps : AllPlain e.maps
  logs : ∀ ⦃t txn⦄, e.live.get? t = some txn → txn.log.IsPlain

namespace Engine.IsPlain

variable {e e' : Engine}

/-- The log of a transaction may be replaced by another plain one. -/
theorem logs_setLog (h : e.IsPlain) {t : TxnId} {log : UndoLog} (hlog : log.IsPlain) ⦃u : TxnId⦄
    ⦃txn : LiveTransaction⦄ (hu : (e.setLog t log).live.get? u = some txn) : txn.log.IsPlain := by
  rw [get?_live_setLog] at hu
  split at hu
  · obtain ⟨txn₀, -, rfl⟩ := Option.map_eq_some_iff.mp hu
    exact hlog
  · exact h.logs hu

/-- Transactions may end. -/
theorem logs_erase (h : e.IsPlain) {t : TxnId} (hlive : e'.live = e.live.erase t) ⦃u : TxnId⦄
    ⦃txn : LiveTransaction⦄ (hu : e'.live.get? u = some txn) : txn.log.IsPlain := by
  rw [hlive, Table.get?_erase] at hu
  split at hu
  · cases hu
  · exact h.logs hu

theorem aborted (h : e.IsPlain) {t : TxnId} {log : UndoLog} (hlog : log.IsPlain) :
    (e.aborted t log).IsPlain where
  maps := by
    rw [maps_aborted]
    exact h.maps.revertAll _ hlog.reverse
  logs := h.logs_erase (e.live_aborted t log)

theorem of_sameWork (h : e.IsPlain) (hsame : SameWork e e') : e'.IsPlain :=
  ⟨hsame.maps ▸ h.maps, hsame.live ▸ h.logs⟩

/-- A call keeps the tombstones plain. -/
theorem effect {c : TxnCall} {a : Except StoreError TxnAnswer} (h : e.IsPlain)
    (hx : Effect e c a e') : e'.IsPlain := by
  cases hx with
  | refused | found | saved | unseen | closed => exact h
  | @begun isolation =>
    -- The log of a new transaction is empty, and the other logs are as they were.
    refine ⟨h.maps, fun t txn hl => ?_⟩
    have hl' : (e.live.insert e.nextTxn
        ⟨isolation.getD e.settings.defaultIsolation, []⟩).get? t = some txn := hl
    rw [Table.get?_insert] at hl'
    split at hl'
    · cases hl'
      exact fun r hr => absurd hr List.not_mem_nil
    · exact h.logs hl'
  | @written t txn p payload m v hl hm hv =>
    -- What is written is not committed, and so it is no tombstone.
    obtain ⟨rfl, -⟩ := Engine.eq_of_versionToWrite hv
    exact ⟨h.maps.insert p.map ((h.maps hm).put p.key (.of_not_isTombstone rfl)),
      h.logs_setLog ((h.logs hl).concat p.map p.key (m.get? p.key) _)⟩
  | @wentBack t txn n hl _ =>
    -- The records that are undone are some of the log, which holds no tombstone.
    refine ⟨h.maps.revertAll _ ((h.logs hl).drop n).reverse, fun u txn' hu => ?_⟩
    rw [live_afterRollbackTo] at hu
    exact h.logs_setLog ((h.logs hl).take n) hu
  | @ended t txn _ hl _ => exact h.aborted (h.logs hl)
  | @undone t txn _ e₁ hl hlog =>
    -- Logging was tried first, and it changes neither maps nor transactions.
    have hsame := runOn_logWrites_sameWork t txn.log e
    rw [hlog] at hsame
    exact (h.of_sameWork hsame).aborted (h.logs hl)
  | @committed t txn e₁ hl hlog =>
    -- Logging changes neither maps nor transactions.
    have hsame := runOn_logWrites_sameWork t txn.log e
    rw [hlog] at hsame
    have h₁ := h.of_sameWork hsame
    refine ⟨?_, h₁.logs_erase (e₁.live_committed t txn.log)⟩
    rw [maps_committed]
    exact h₁.maps.commit txn.log

theorem after (h : e.IsPlain) (q : EngineRequest) : (e.after q).IsPlain := by
  cases q with
  | call c => exact h.effect (c.effect e)
  | createMap name keyCodec valueCodec =>
    obtain ⟨hlive, -, -, hcases⟩ := e.createMap_cases name keyCodec valueCodec
    refine ⟨?_, fun _ _ hl => h.logs (hlive ▸ hl)⟩
    -- A map that was just made has no slots.
    rcases hcases with ⟨-, hmaps⟩ | ⟨-, -, hmaps⟩
    · rw [Engine.after, hmaps]
      exact h.maps
    · rw [Engine.after, hmaps]
      exact h.maps.insert name (.empty name keyCodec valueCodec)
  | dropMap name =>
    obtain ⟨hlive, -, -, hmaps⟩ := e.dropMap_cases name
    refine ⟨?_, fun _ _ hl => h.logs (hlive ▸ hl)⟩
    rw [Engine.after, hmaps]
    exact h.maps.erase name

theorem replayRecord (h : e.IsPlain) (r : RawRecord) :
    ((Engine.replayRecord r).runOn e).2.IsPlain := by
  rcases Engine.replayRecord_cases e r with
    ⟨err, hrun⟩ | hrun | ⟨m, key, payload, hm, -, hrun⟩
  · rw [hrun]
    exact h
  · rw [hrun]
    exact h
  · rw [hrun]
    exact ⟨h.maps.insert r.map ((h.maps hm).replayInto key payload), h.logs⟩

end Engine.IsPlain

theorem Engine.IsReachable.isPlain {e : Engine} (h : e.IsReachable) : e.IsPlain := by
  induction h with
  | opened hopen =>
    refine Engine.openWith_keeps (P := Engine.IsPlain) ?_ ?_ hopen
    · constructor
      · -- A new engine has neither slots nor transactions.
        intro name m hm
        cases hm
      · intro t txn hl
        cases hl
    · intro e name keyCodec valueCodec nextMapId h
      exact ⟨h.maps.insert name (.empty name keyCodec valueCodec), h.logs⟩
  | after _ q ih => exact ih.after q
  | recovered _ ih => exact Engine.recover_keeps (fun _ r h => h.replayRecord r) ih
  | elsewhere _ log catalog dirty metrics ih => exact ⟨ih.maps, ih.logs⟩

end TxnStore
