import TxnStore.Proofs.Recovery.MapDefinitions
import TxnStore.Proofs.Recovery.Replay

/-!
# Engines that can be opened again

An engine stands on a catalog, which defines its maps, and on a log, which has the frames of its
commits. As long as neither has faults, another engine can be opened over the two whenever the first
one is lost. Everything that can happen to an engine keeps it so, and a commit adds at most one
frame, which carries the records of its writes to open maps.
-/

namespace TxnStore

open TxnStore.Action

/-- The codecs of the open maps, by name. Other names are given some codecs, which do not matter. -/
def codecBook (maps : Table String VersionMap) : CodecBook := fun name =>
  (codecsOf maps name).getD (.int64, .int64)

theorem codecBook_of_codecsOf {maps : Table String VersionMap} {name : String}
    {codecs : Codec × Codec} (h : codecsOf maps name = some codecs) :
    codecBook maps name = codecs := by
  rw [codecBook, h, Option.getD_some]

/-- The records that a commit of a transaction is to log: those of its pending writes to maps that
are open. -/
def Engine.recordsOf (e : Engine) (t : TxnId) : List RedoRecord :=
  match e.live.get? t with
  | none => []
  | some txn => txn.log.toRedo e.maps.contains

theorem UndoLog.contains_of_mem_toRedo {isOpen : String → Bool} {log : UndoLog}
    {record : RedoRecord} (h : record ∈ log.toRedo isOpen) : isOpen record.map = true := by
  obtain ⟨w, hw, rfl⟩ := List.mem_map.mp h
  have hkept := (List.mem_filter.mp hw).2
  rw [Bool.and_eq_true] at hkept
  exact hkept.2

namespace Engine

/-- An engine over a catalog that defines its maps and a log with the given frames, both of them
without faults. -/
structure IsReopenable (options : LogOptions) (e : Engine) (frames : List Frame) : Prop where
  settings : e.settings.validate = .ok ()
  restores : e.catalog.Restores e.maps
  log : ∃ log, e.log = some log ∧ log.Serves frames ∧
    log.header = ⟨options.salt, options.startLsn⟩

namespace IsReopenable

variable {options : LogOptions} {e e' : Engine} {frames : List Frame}

theorem of_sameFooting (h : e.IsReopenable options frames) (hsame : SameFooting e e') :
    e'.IsReopenable options frames where
  settings := hsame.settings ▸ h.settings
  restores := by
    rw [hsame.catalog]
    exact h.restores.congr hsame.codecs
  log := hsame.log ▸ h.log

/-! ## Events -/

theorem createMap (h : e.IsReopenable options frames) (name : String)
    (keyCodec valueCodec : Codec) :
    ((Engine.createMap name keyCodec valueCodec).runOn e).2.IsReopenable options frames := by
  cases hopen : e.maps.contains name with
  | true =>
    rw [runOn_createMap_of_contains hopen]
    exact h
  | false =>
    obtain ⟨catalog, hrestores, hrun⟩ := runOn_createMap h.restores hopen keyCodec valueCodec
    rw [hrun]
    exact ⟨h.settings, hrestores, h.log⟩

theorem dropMap (h : e.IsReopenable options frames) (name : String) :
    ((Engine.dropMap name).runOn e).2.IsReopenable options frames := by
  cases hopen : e.maps.contains name with
  | false =>
    rw [runOn_dropMap_of_not_contains hopen]
    exact h
  | true =>
    obtain ⟨catalog, hrestores, hrun⟩ := runOn_dropMap h.restores hopen
    rw [hrun]
    exact ⟨h.settings, hrestores, h.log⟩

/-- All that a commit can do: it is refused and adds no frame, or it adds at most one frame, and the
frames then store the records of its writes as well. -/
theorem commit_cases (h : e.IsReopenable options frames) (t : TxnId)
    (hlsn : options.startLsn.val.toNat + frames.length + 1 < UInt64.size) :
    ∃ answer e', (commit t).runOn e = (answer, e') ∧
      (∀ name, codecsOf e'.maps name = codecsOf e.maps name) ∧
      ((∃ err, answer = .error err ∧ e'.IsReopenable options frames) ∨
        ∃ frames', answer = .ok () ∧ e'.IsReopenable options frames' ∧
          frames'.length ≤ frames.length + 1 ∧
          ∀ history, Stores frames history →
            Stores frames' (history ++
              (e.recordsOf t).map (RedoRecord.loggedWith (codecBook e.maps)))) := by
  rw [runOn_commit]
  cases hl : e.live.get? t with
  -- A transaction that is not under way cannot be committed.
  | none => exact ⟨_, e, rfl, fun _ => rfl, .inl ⟨_, rfl, h⟩⟩
  | some txn =>
    -- The log serves the frames, and its next number is not the last one.
    obtain ⟨log, hlog, hserves, hheader⟩ := h.log
    have hnext : log.nextLsn.val.toNat + 1 < UInt64.size := by
      rw [hserves.holds.nextLsn, hheader]
      exact hlsn
    have hrecords : e.recordsOf t = txn.log.toRedo e.maps.contains := by rw [recordsOf, hl]
    have hbook : ∀ name c, codecsOf e.maps name = some c → codecBook e.maps name = c :=
      fun _ _ => codecBook_of_codecsOf
    have hcases := logWrites_cases hbook hlog hserves hnext t txn.log
    -- Logging changes nothing but the log, the estimates and the counts.
    obtain ⟨log₁, dirty, metrics, hlogged⟩ := logWrites_eq t txn.log e
    simp only
    rcases hrun : (logWrites t txn.log).runOn e with ⟨result, e₁⟩
    rw [hrun] at hcases hlogged
    obtain rfl : e₁ = { e with log := log₁, dirty, metrics } := hlogged
    rcases hcases with ⟨err, e', heq, hsame⟩ | ⟨e', hnil, heq, hsame⟩ |
      ⟨bs, log', e', hbs, heq, hlog', hserves', hheader', -⟩
    · -- Nothing was logged, and the transaction is undone.
      cases heq
      have hfooting : SameFooting e { e with log := log₁, dirty, metrics } :=
        ⟨hsame.trans hlog.symm, rfl, rfl, fun _ => rfl⟩
      have hover := hfooting.trans (aborted_sameFooting _ t txn.log)
      exact ⟨_, _, rfl, hover.codecs, .inl ⟨err, rfl, h.of_sameFooting hover⟩⟩
    · -- Nothing was to be logged.
      cases heq
      have hfooting : SameFooting e { e with log := log₁, dirty, metrics } :=
        ⟨hsame.trans hlog.symm, rfl, rfl, fun _ => rfl⟩
      have hover := hfooting.trans (committed_sameFooting _ t txn.log)
      refine ⟨_, _, rfl, hover.codecs, .inr ⟨frames, rfl, h.of_sameFooting hover, Nat.le_succ _,
        fun history hstores => ?_⟩⟩
      rw [hrecords, hnil, List.map_nil, List.append_nil]
      exact hstores
    · -- One frame more has the records of the commit.
      cases heq
      have hframe : IsReopenable options { e with log := log₁, dirty, metrics }
          (frames ++ [⟨log.nextLsn, t, bs⟩]) :=
        ⟨h.settings, h.restores, log', hlog', hserves', hheader'.trans hheader⟩
      have hfinal := committed_sameFooting { e with log := log₁, dirty, metrics } t txn.log
      refine ⟨_, _, rfl, hfinal.codecs, .inr ⟨_, rfl, hframe.of_sameFooting hfinal, ?_,
        fun history hstores => ?_⟩⟩
      · rw [List.length_append]
        exact Nat.le_refl _
      · rw [hrecords]
        exact hstores.concat hbs

/-! ## Opening again -/

theorem reopenLog_eq (h : e.IsReopenable options frames) :
    ∃ log, reopenLog options e.log = .ok (some log) ∧ log.Serves frames ∧
      log.header = ⟨options.salt, options.startLsn⟩ := by
  obtain ⟨log, hlog, hserves, hheader⟩ := h.log
  -- A log that serves has its contents and nothing else on its device.
  have hbytes := hserves.holds.unpoisoned hserves.unpoisoned
  have hread : log.device.faults.read = false := by rw [hserves.faultless]; rfl
  have hlength : log.device.faults.length = false := by rw [hserves.faultless]; rfl
  have hsalt : log.header.salt = options.salt := by rw [hheader]
  have hopen := RedoLog.openOn_contents hread hlength hsalt hserves.holds.sequence hbytes
  refine ⟨RedoLog.reopened options log.header frames log.device, ?_, ⟨?_, rfl, ?_⟩, hheader⟩
  · rw [hlog, reopenLog]
    simp only [hopen]
  · exact RedoLog.holds_reopened hserves.holds.sequence hbytes
  · exact hserves.faultless

/-- Another engine can be opened and recovered, if the codecs of all records for open maps are those
that the maps have. It has the same maps, and they hold what the records leave. -/
theorem restart (h : e.IsReopenable options frames) {history : List LoggedRecord}
    (hstores : Stores frames history)
    (hreads : ∀ l ∈ history, e.maps.contains l.record.map = true →
      l.codecs = codecBook e.maps l.record.map) :
    ∃ e', e.restart options = .ok e' ∧ e'.IsReopenable options frames ∧
      e'.live = Table.empty ∧ e'.nextTxn = ⟨1⟩ ∧
      (∀ name, codecsOf e'.maps name = codecsOf e.maps name) ∧
      ∀ p, e.maps.contains p.map = true → slotAt e'.maps p =
        (RedoRecord.applyAll (fun _ => none) (history.map LoggedRecord.record) p).map
          fun v => .settled (some v) := by
  -- The log is opened again with its frames, and the maps are opened from the catalog.
  obtain ⟨log, hlog, hserves, hheader⟩ := h.reopenLog_eq
  obtain ⟨maps, nextMapId, hopen, hrestores, hnone⟩ :=
    openWith_of_codecs h.settings h.restores.ready h.restores.nodup
      (fun b hb hkind => h.restores.isSome_codecs? hb hkind) (some log)
      (e.metrics.map fun _ => Metrics.zero)
  have hsame := Defines.codecsOf_eq h.restores.defines hrestores.defines
  -- Before the replay the maps show that nothing is committed.
  have hshows : Shows (codecBook e.maps) e.maps.contains maps fun _ => none := by
    refine ⟨fun name => ?_, fun p _ => hnone p⟩
    rw [hsame, ← isSome_codecsOf, codecBook]
    cases codecsOf e.maps name <;> rfl
  let e₀ : Engine := { bare e.settings e.catalog (some log)
    (e.metrics.map fun _ => Metrics.zero) with maps, nextMapId }
  obtain ⟨stats, maps', hrecover, hshows'⟩ :=
    runOn_recover (e := e₀) hshows rfl hserves hstores hreads
  -- Replaying has not touched the codecs.
  have hcodecs : ∀ name, codecsOf maps' name = codecsOf e.maps name := fun name => by
    rw [hshows'.codecs, ← hshows.codecs, hsame]
  refine ⟨{ e₀ with maps := maps' }, ?_, ⟨h.settings, ?_, ⟨log, rfl, hserves, hheader⟩⟩, rfl, rfl,
    hcodecs, hshows'.slots⟩
  · simp only [Engine.restart, hlog, hopen]
    rw [hrecover]
  · exact h.restores.congr hcodecs

end IsReopenable

/-- An engine that was opened over an empty log can be opened again. -/
theorem isReopenable_of_openWith {options : LogOptions} {settings : Settings} {catalog : Catalog}
    {device device' : Device} {log : RedoLog} {metrics : Option Metrics} {e : Engine}
    (hready : catalog.IsReady) (hnodup : catalog.store.committed.keys.Nodup)
    (hempty : device.bytes = []) (hfaults : device.faults = .none)
    (hlog : RedoLog.openOn options device = (.ok log, device'))
    (hopen : openWith settings catalog (some log) metrics = .ok e) :
    e.IsReopenable options [] := by
  obtain ⟨hsettings, maps, nextMapId, rfl, hrestores, -⟩ := eq_of_openWith hready hnodup hopen
  obtain ⟨rfl, rfl⟩ := RedoLog.eq_of_openOn_empty hempty hlog
  refine ⟨hsettings, hrestores, _, rfl, ⟨?_, rfl, hfaults⟩, rfl⟩
  refine RedoLog.holds_reopened (IsSequence.nil _) ?_
  rw [LogHeader.contents_nil]

end Engine

end TxnStore
