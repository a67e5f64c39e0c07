import TxnStore.Proofs.Transactions.MapSizes

/-!
# Transactions that leave nothing behind

A transaction that is rolled back, dropped or cannot be committed leaves everything as if it had
never written: the slots, the numbers of rows and the frames of the log. The slot of a key that it
wrote several times is brought back in as many steps, from the newest write to the oldest, and each
record keeps what the one before it has left.
-/

namespace TxnStore

open TxnStore.Action

/-! ## Undoing all writes -/

namespace UndoLog

theorem revertAll_concat (rs : List UndoRecord) (r : UndoRecord) (e : Engine) :
    (revertAll (rs ++ [r]) e).2 = (r.rollback (revertAll rs e).2).2 := by
  induction rs generalizing e with
  | nil => rfl
  | cons s rest ih => exact ih (s.rollback e).2

theorem contains_revertAll (rs : List UndoRecord) (e : Engine) (name : String) :
    (revertAll rs e).2.maps.contains name = e.maps.contains name := by
  rw [← isSome_codecsOf, (revertAll_sameFooting rs e).codecs, isSome_codecsOf]

/-- Once all writes of a log are undone, the slot at a place is what the oldest record there
keeps. -/
theorem slotAt_revertAll {log : UndoLog} {e : Engine} (hpending : ∀ r ∈ log, r.isFinished = false)
    {p : Place} (hopen : e.maps.contains p.map = true) :
    slotAt (revertAll log.reverse e).2.maps p =
      ((log.find? fun r => r.place = p).map UndoRecord.old?).getD (slotAt e.maps p) := by
  -- The newest write is undone first, so that the oldest record has the last word.
  induction log with
  | nil => rfl
  | cons r rest ih =>
    have hrest := ih fun s hs => hpending s (List.mem_cons_of_mem _ hs)
    have hfirst : r.isFinished = false := hpending r List.mem_cons_self
    rw [List.reverse_cons, revertAll_concat, List.find?_cons]
    -- The oldest record of the place decides, whatever those after it had brought back.
    by_cases hp : r.place = p
    · subst hp
      have hmap : (revertAll rest.reverse e).2.maps.contains r.map = true :=
        (contains_revertAll rest.reverse e r.map).trans hopen
      obtain ⟨m, hm⟩ := Option.isSome_iff_exists.mp hmap
      rw [slotAt_rollback hfirst hm]
      simp [UndoRecord.place]
    · -- A record of another place leaves the slot, whether or not its map is open.
      have hother : slotAt (r.rollback (revertAll rest.reverse e).2).2.maps p =
          slotAt (revertAll rest.reverse e).2.maps p := by
        cases hm : (revertAll rest.reverse e).2.maps.get? r.map with
        | none => simp [UndoRecord.rollback, UndoRecord.skip, hfirst, hm, Engine.count]
        | some m =>
          rw [slotAt_rollback hfirst hm]
          exact if_neg fun h => hp h.symm
      rw [hother, hrest, decide_eq_false hp]

end UndoLog

/-! ## Giving a transaction up -/

/-- A call gives a transaction up: it rolls it back, drops it, or cannot commit it. -/
inductive GivesUp (t : TxnId) : TxnCall → Except StoreError TxnAnswer → Prop where
  | rollback {a : Except StoreError TxnAnswer} : GivesUp t (.rollback t) a
  | drop {a : Except StoreError TxnAnswer} : GivesUp t (.drop t) a
  | commit {err : StoreError} : GivesUp t (.commit t) (.error err)

namespace Engine

/-- What is read from the log of an engine, if there is one, while certain calls of its device
fail. -/
def framesUnder (e : Engine) (faults : DeviceFaults) :
    Option (Except StoreError (List Frame × Nat)) :=
  e.log.map fun log => (RedoLog.frames.runOn (log.withFaults faults)).1

theorem framesUnder_withFaults (e : Engine) (faults faults' : DeviceFaults) :
    (e.withFaults faults).framesUnder faults' = e.framesUnder faults' := by
  unfold framesUnder withFaults
  rw [Option.map_map]
  rfl

/-- Writes that cannot be logged leave the frames in the log. -/
theorem framesUnder_of_refused {t : TxnId} {writes : UndoLog} {e e' : Engine} {err : StoreError}
    (htrimmed : e.LogTrimmed) (h : (logWrites t writes).runOn e = (.error err, e'))
    (faults : DeviceFaults) : e'.framesUnder faults = e.framesUnder faults := by
  rcases log_of_logWrites h with hsame | ⟨log, log', payload, b, hlog, hlog', happend, hrefused⟩
  · rw [framesUnder, hsame, framesUnder]
  · obtain ⟨err', rfl⟩ := hrefused ⟨err, rfl⟩
    rw [framesUnder, framesUnder, hlog, hlog', Option.map_some, Option.map_some,
      (htrimmed hlog).frames_of_refused happend faults]

/-- Whoever gives a transaction up undoes its writes and ends it, and leaves the frames in the
log. -/
theorem aborted_of_givesUp {e e' : Engine} {t : TxnId} {c : TxnCall}
    {a : Except StoreError TxnAnswer} (htrimmed : e.LogTrimmed) {txn : LiveTransaction}
    (hl : e.live.get? t = some txn) (hrun : c.action.runOn e = (a, e')) (hup : GivesUp t c a) :
    ∃ e₁, e' = e₁.aborted t txn.log ∧ SameWork e e₁ ∧
      ∀ faults, e'.framesUnder faults = e.framesUnder faults := by
  -- Undoing touches no frame.
  have hframes : ∀ (e₁ : Engine) (faults : DeviceFaults),
      (e₁.aborted t txn.log).framesUnder faults = e₁.framesUnder faults := by
    intro e₁ faults
    rw [framesUnder, (aborted_sameFooting e₁ t txn.log).log, framesUnder]
  cases hup with
  | rollback =>
    rw [TxnCall.action, runOn_map, runOn_rollback, hl] at hrun
    cases hrun
    exact ⟨e, rfl, .refl e, hframes e⟩
  | drop =>
    rw [TxnCall.action, runOn_map, runOn_attempt, runOn_rollback, hl] at hrun
    cases hrun
    exact ⟨e, rfl, .refl e, hframes e⟩
  | commit =>
    rw [TxnCall.action, runOn_map, runOn_commit, hl] at hrun
    rcases hlog : (logWrites t txn.log).runOn e with ⟨err | u, e₁⟩
    · -- The writes were refused by their codecs or by the log, and are then undone.
      simp only [hlog] at hrun
      cases hrun
      have hsame := runOn_logWrites_sameWork t txn.log e
      rw [hlog] at hsame
      refine ⟨e₁, rfl, hsame, fun faults => ?_⟩
      rw [hframes, framesUnder_of_refused htrimmed hlog]
    · simp only [hlog] at hrun
      -- A commit that succeeds does not give up.
      cases hrun

end Engine

/-! ## Where a run starts -/

/-- An engine on which no transaction has written anything: what is in its maps is committed, and
all is counted and listed as it should be. -/
structure Engine.IsRested (e : Engine) : Prop where
  quiet : e.IsQuiet
  counted : AllCounted e.maps
  nodup : e.live.keys.Nodup
  trimmed : e.LogTrimmed

namespace Engine.IsRested

variable {e : Engine}

theorem isFollowed (h : e.IsRested) : e.IsFollowed .blank (.ofEngine e) where
  agrees := h.quiet.agrees
  remembers t txn hl := by
    rw [h.quiet.unwritten hl]
    exact .nil t
  counted := h.counted
  nodup := h.nodup
  trimmed := h.trimmed

/-- An engine is rested once it was opened, if its log was. -/
theorem of_openWith {settings : Settings} {catalog : Catalog} {log : Option RedoLog}
    {metrics : Option Metrics} (hlog : ∀ ⦃l⦄, log = some l → l.IsTrimmed)
    (hrun : Engine.openWith settings catalog log metrics = .ok e) : e.IsRested := by
  have htidy := Engine.IsTidy.of_openWith hrun
  -- Opening neither begins a transaction nor touches the log.
  obtain ⟨hnodup, htrimmed⟩ : e.live.keys.Nodup ∧ e.LogTrimmed :=
    Engine.openWith_keeps (P := fun e => e.live.keys.Nodup ∧ e.LogTrimmed) ⟨List.nodup_nil, hlog⟩
      (fun _ _ _ _ _ h => h) hrun
  exact ⟨htidy.quiet, htidy.counted, hnodup, htrimmed⟩

end Engine.IsRested

/-! ## The main statement -/

/-- Take any requests to a rested engine that create no map under a name for which an unfinished
transaction has a write, and let any calls of the device of the log fail during each of them. Then
let a transaction be rolled back or dropped, or let its commit fail, for whatever reason. In all maps
the slots are then as they would be without its surviving writes: where it has some, the slot has
the version that the oldest of them found, or none if that was a committed tombstone, and all others
are unchanged. The size of a map is the number of its rows without these writes, the log gives the
same frames, and the transaction is under way no longer, while all others are. -/
theorem Engine.gives_up_without_trace {e : Engine} (hrested : e.IsRested)
    (requests : List (DeviceFaults × EngineRequest)) (hnames : e.reusesNoNames requests = true)
    (hnumbers : e.HasNumbers (requests.countP fun q => q.2.event.isBegin)) {t : TxnId}
    (faults : DeviceFaults) {c : TxnCall} {a : Except StoreError TxnAnswer} {e' : Engine} :
    let s := e.runNoting .blank requests
    (s.1.live.get? t).isSome = true → c.action.runOn (s.1.withFaults faults) = (a, e') →
      GivesUp t c a →
      (∀ p, s.1.HasWritten t p ↔ ∃ w ∈ s.2 t, w.1 = p) ∧
      (∀ name, e'.maps.contains name = s.1.maps.contains name) ∧
      (∀ p, s.1.maps.contains p.map = true →
        slotAt e'.maps p = s.2.slotWithout s.1.maps t p) ∧
      (∀ name m, e'.maps.get? name = some m →
        VersionMap.HasLive (fun key => s.2.slotWithout s.1.maps t ⟨name, key⟩) m.size) ∧
      (∀ faults', e'.framesUnder faults' = s.1.framesUnder faults') ∧
      e'.live.get? t = none ∧ (∀ u, u ≠ t → e'.live.get? u = s.1.live.get? u) ∧
      e'.activeTransactions + 1 = s.1.activeTransactions := by
  intro s hlive hrun hup
  -- The run is followed by the history of writes, and by the machine.
  obtain ⟨r, hfollowed⟩ := hrested.isFollowed.run hnames hnumbers.ofEngine
  obtain ⟨txn, hl⟩ := Option.isSome_iff_exists.mp hlive
  have hwrites : RecordsWrites t (s.2 t) txn.log := hfollowed.remembers hl
  obtain ⟨e₁, rfl, hsame, hframes⟩ :=
    Engine.aborted_of_givesUp (hfollowed.withFaults faults).trimmed hl hrun hup
  have hmaps : e₁.maps = s.1.maps := hsame.maps
  -- Undoing writes opens and closes no map.
  have hopen : ∀ name, (e₁.aborted t txn.log).maps.contains name = s.1.maps.contains name := by
    intro name
    rw [Engine.maps_aborted, UndoLog.contains_revertAll, hmaps]
  have hslots : ∀ p, s.1.maps.contains p.map = true →
      slotAt (e₁.aborted t txn.log).maps p = s.2.slotWithout s.1.maps t p := by
    intro p hp
    -- What is brought back is what the history remembers from before the first write.
    rw [Engine.maps_aborted, UndoLog.slotAt_revertAll hwrites.pending (by rw [hmaps]; exact hp),
      hmaps, ← hwrites.find?, WriteHistory.slotWithout]
    cases (s.2 t).find? fun w => w.1 = p <;> rfl
  refine ⟨fun p => ?_, hopen, hslots, fun name m hm => ?_, fun faults' => ?_, ?_, fun u hut => ?_, ?_⟩
  · -- A place was written to in the engine if the history has a write to it.
    rw [← hwrites.exists_place]
    constructor
    · rintro ⟨txn', hl', w, hw, hmap, hkey⟩
      obtain rfl := Option.some.inj (hl.symm.trans hl')
      exact ⟨w, hw, Place.ext hmap hkey⟩
    · rintro ⟨w, hw, rfl⟩
      exact ⟨txn, hl, w, hw, rfl, rfl⟩
  · -- The count of the map is right, and its slots are known.
    have hfaulty := hfollowed.withFaults faults
    have hx := c.effect (s.1.withFaults faults)
    rw [hrun] at hx
    have hsize := (hx.counted hfaulty.agrees hfaulty.remembers hfaulty.counted hm).size
    have hget : m.get? = fun key => s.2.slotWithout s.1.maps t ⟨name, key⟩ := by
      funext key
      have hmap : s.1.maps.contains name = true := by
        rw [← hopen, Table.contains, hm]
        rfl
      rw [← hslots ⟨name, key⟩ hmap, slotAt, hm, Option.bind_some]
    rwa [hget] at hsize
  · rw [hframes, Engine.framesUnder_withFaults]
  · rw [Engine.live_aborted, Table.get?_erase_self]
  · -- The transactions of others are untouched, and one fewer is under way.
    rw [Engine.live_aborted, Table.get?_erase_ne _ hut, hsame.live]
    rfl
  · rw [Engine.activeTransactions, Engine.live_aborted, hsame.live]
    exact Table.size_erase hfollowed.nodup hlive

/-- A commit is given up as its frame can be neither written nor cut off again. The slots that the
transaction wrote are those of the last commits, and another transaction keeps its write. -/
theorem Engine.gives_up_without_trace_of_poisoned_log :
    let options := LogOptions.basic 7 .never
    let quiet (c : TxnCall) : DeviceFaults × EngineRequest := (.none, .call c)
    let requests : List (DeviceFaults × EngineRequest) :=
      [(.none, .createMap "m" .int64 .text), quiet (.begin (some .repeatableRead)),
        quiet (.begin none), quiet (.put ⟨2⟩ ⟨"m", .int 1⟩ (.text "a")),
        quiet (.put ⟨2⟩ ⟨"m", .int 2⟩ (.text "b")), quiet (.commit ⟨2⟩), quiet (.begin none),
        quiet (.delete ⟨3⟩ ⟨"m", .int 2⟩), quiet (.commit ⟨3⟩), quiet (.begin none),
        quiet (.put ⟨4⟩ ⟨"m", .int 1⟩ (.text "x")), quiet (.put ⟨4⟩ ⟨"m", .int 2⟩ (.text "y")),
        quiet (.put ⟨4⟩ ⟨"m", .int 3⟩ (.text "z")), quiet (.rollbackTo ⟨4⟩ 2),
        quiet (.delete ⟨4⟩ ⟨"m", .int 1⟩), quiet (.begin none),
        quiet (.put ⟨5⟩ ⟨"m", .int 4⟩ (.text "u"))]
    let stuck : DeviceFaults := ⟨false, true, false, false, true, some 5⟩
    ∃ log device e, RedoLog.openOn options (Device.ofBytes []) = (.ok log, device) ∧
      Engine.openWith .basic .inMemory (some log) none = .ok e ∧ e.IsRested ∧
      e.reusesNoNames requests = true ∧
      e.HasNumbers (requests.countP fun q => q.2.event.isBegin) ∧
      let s := e.runNoting .blank requests
      let x := (TxnCall.commit ⟨4⟩).action.runOn (s.1.withFaults stuck)
      (s.1.live.get? ⟨4⟩).isSome = true ∧ x.1 = .error (.device .writeFailed) ∧
        slotAt x.2.maps ⟨"m", .int 1⟩ = some (.settled (some (.text "a"))) ∧
        slotAt x.2.maps ⟨"m", .int 2⟩ = none ∧ slotAt x.2.maps ⟨"m", .int 3⟩ = none ∧
        slotAt x.2.maps ⟨"m", .int 4⟩ = slotAt s.1.maps ⟨"m", .int 4⟩ ∧
        (x.2.maps.get? "m").map VersionMap.size = some 2 ∧
        x.2.framesUnder .none = s.1.framesUnder .none ∧
        x.2.activeTransactions + 1 = s.1.activeTransactions := by
  intro options quiet requests stuck
  let log := RedoLog.fresh options
  have hlog : RedoLog.openOn options (Device.ofBytes []) = (.ok log, log.device) :=
    RedoLog.openOn_fresh options
  have htrimmed : log.IsTrimmed := RedoLog.isTrimmed_of_openOn hlog
  let e := Engine.bare .basic .inMemory (some log) none
  have hopen : Engine.openWith .basic .inMemory (some log) none = .ok e := rfl
  have hrested : e.IsRested := by
    apply Engine.IsRested.of_openWith _ hopen
    intro l hl
    cases hl
    exact htrimmed
  have hnames : e.reusesNoNames requests = true := by decide +kernel
  have hnumbers : e.HasNumbers (requests.countP fun q => q.2.event.isBegin) :=
    ⟨by decide, fun _ _ => rfl⟩
  let s := e.runNoting .blank requests
  let x := (TxnCall.commit ⟨4⟩).action.runOn (s.1.withFaults stuck)
  -- The append fails halfway, and so does cutting it off: the log is poisoned.
  have hlive : (s.1.live.get? ⟨4⟩).isSome = true := by decide +kernel
  have hfails : x.1 = .error (.device .writeFailed) := by
    have hrefusal : refusal? x.1 = some (.device .writeFailed) := by decide +kernel
    revert hrefusal
    cases x.1 <;> simp [refusal?]
  have hrun : x = (.error (.device .writeFailed), x.2) := by rw [← hfails]
  -- All that is asked for but the error comes from the general statement.
  obtain ⟨-, -, hslots, -, hframes, -, -, hactive⟩ :=
    Engine.gives_up_without_trace hrested requests hnames hnumbers stuck hlive hrun .commit
  have hmap : s.1.maps.contains "m" = true := by decide +kernel
  refine ⟨log, _, e, hlog, hopen, hrested, hnames, hnumbers, hlive, hfails, ?_, ?_, ?_, ?_, ?_,
    hframes .none, hactive⟩
  · rw [hslots ⟨"m", .int 1⟩ hmap]
    decide +kernel
  · rw [hslots ⟨"m", .int 2⟩ hmap]
    decide +kernel
  · rw [hslots ⟨"m", .int 3⟩ hmap]
    decide +kernel
  · rw [hslots ⟨"m", .int 4⟩ hmap]
    decide +kernel
  · decide +kernel

end TxnStore
