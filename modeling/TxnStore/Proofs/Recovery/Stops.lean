import TxnStore.Proofs.Recovery.Durability

/-!
# Stops

An engine may be lost after any event of its life, and another one is opened in its place and
recovered; this one may be lost again. Whenever that happens, what is recovered is what was
committed last.
-/

namespace TxnStore

open TxnStore.Action

namespace IsDurable

variable {options : LogOptions} {n : MapNames} {e e' : Engine} {r r' : OverlayMachine} {a : Archive}

/-! ## One stop -/

theorem agrees_restart (hcodecs : ∀ name, codecsOf e'.maps name = codecsOf e.maps name)
    (h : Agrees e r)
    (hslots : ∀ p, r.isOpen p.map = true →
      slotAt e'.maps p = (r.committed p).map fun v => .settled (some v))
    (hlive : e'.live = Table.empty) (hnext : e'.nextTxn = ⟨1⟩) : Agrees e' r.restart where
  slots := by
    refine ⟨fun name => ?_, fun _ ho => ?_, fun {p} hopen _ => ?_⟩
    · -- The maps that are open are the same.
      rw [← isSome_codecsOf, hcodecs, isSome_codecsOf]
      exact h.slots.isOpen name
    · -- No transaction has outlived the restart, and no place is held.
      cases ho
    · rw [hslots p hopen]
      -- A slot is empty, or it holds a committed row.
      show IsSettled _ (r.committed p)
      cases r.committed p with
      | none => exact .inr ⟨rfl, rfl⟩
      | some v => exact .inl rfl
  exclusive := by
    intro t u p ht
    cases ht
  nextTxn := hnext.symm
  logs t := by
    rw [hlive]
    rfl
  begun t ht := by cases ht

/-- Another engine can be opened, and its slots hold what is committed. -/
theorem restart (h : IsDurable options n e r a) :
    ∃ e', e.restart options = .ok e' ∧ IsDurable options n e' r.restart a ∧
      ∀ p, r.isOpen p.map = true →
        slotAt e'.maps p = (r.committed p).map fun v => .settled (some v) := by
  -- All records for open maps were written with the codecs of the archive.
  have hreads : ∀ l ∈ a.history.map (RedoRecord.loggedWith a.codecs),
      e.maps.contains l.record.map = true → l.codecs = codecBook e.maps l.record.map := by
    intro l hl hopen
    obtain ⟨record, -, rfl⟩ := List.mem_map.mp hl
    have hname := h.codecs record.map
    rw [if_pos (h.isOpen_eq ▸ hopen)] at hname
    exact (codecBook_of_codecsOf hname).symm
  have hrecords : (a.history.map (RedoRecord.loggedWith a.codecs)).map LoggedRecord.record =
      a.history := by
    rw [List.map_map]
    exact List.map_id a.history
  obtain ⟨e', hrestart, hreopens, hlive, hnext, hcodecs, hleft⟩ :=
    h.reopens.restart h.carries hreads
  rw [hrecords] at hleft
  -- The machine has committed what the records say.
  have hslots : ∀ p, r.isOpen p.map = true →
      slotAt e'.maps p = (r.committed p).map fun v => .settled (some v) := fun p hp => by
    rw [hleft p (h.isOpen_eq ▸ hp), h.committed hp]
  refine ⟨e', hrestart, ⟨agrees_restart hcodecs h.agrees hslots hlive hnext, hreopens, h.carries,
    fun name => (hcodecs name).trans (h.codecs name), h.committed, h.names,
    fun {name} hclosed hdropped => ?_⟩, hslots⟩
  -- A map that was closed all along is untouched by the restart.
  obtain ⟨hcommitted, -, hrecords⟩ := h.untouched hclosed hdropped
  exact ⟨hcommitted, fun _ => rfl, hrecords⟩

/-! ## Many events -/

/-- Every event leaves what is committed durable, and a restart succeeds. -/
theorem undergo (h : IsDurable options n e r a) {ev : EngineEvent} (hpermits : n.permits ev = true)
    {k : Nat} (hnew : r.HasNumbers (k + if ev.isBegin then 1 else 0))
    (hlsn : options.startLsn.val.toNat + a.frames.length + (if ev.isCommit then 1 else 0) <
      UInt64.size) :
    ∃ e' a', e.undergo options ev = .ok e' ∧
      IsDurable options (n.step ev) e' (r.undergo (e.refusalOf ev) ev) a' ∧
      a'.frames.length ≤ a.frames.length + (if ev.isCommit then 1 else 0) ∧
      (r.undergo (e.refusalOf ev) ev).HasNumbers k := by
  cases ev with
  | call c =>
    have hlater : (r.step (refusal? (c.action.runOn e).1) c).2.HasNumbers k := hnew.step _
    cases hc : c.isCommit with
    | true =>
      cases c with
      | commit t =>
        obtain ⟨a', hdurable, hcount⟩ := h.commit t hlsn
        exact ⟨_, a', rfl, hdurable, hcount, hlater⟩
      | _ => simp [TxnCall.isCommit] at hc
    | false =>
      -- A call other than a commit stands on the same log, but a transaction it starts needs a
      -- number.
      exact ⟨_, a, rfl, h.call hc (h.agrees.fresh hnew), Nat.le_add_right _ _, hlater⟩
  | createMap name keyCodec valueCodec =>
    have hname : n.dropped name = false := by simpa [MapNames.permits] using hpermits
    obtain ⟨a', hdurable, hframes⟩ := h.createMap hname keyCodec valueCodec
    exact ⟨_, a', rfl, hdurable, by rw [hframes]; exact Nat.le_add_right _ _, hnew⟩
  | dropMap name => exact ⟨_, a, rfl, h.dropMap name, Nat.le_add_right _ _, hnew⟩
  | restart =>
    obtain ⟨e', hrestart, hdurable, -⟩ := h.restart
    exact ⟨e', a, hrestart, hdurable, Nat.le_add_right _ _, hnew.1, fun _ _ => rfl⟩

theorem runBeside (h : IsDurable options n e r a) (events : List EngineEvent)
    (hnames : n.neverReused events = true)
    (hnew : r.HasNumbers (events.countP EngineEvent.isBegin))
    (hlsn : options.startLsn.val.toNat + a.frames.length + events.countP EngineEvent.isCommit <
      UInt64.size) :
    ∃ n' e' r' a', e.runBeside options r events = .ok (e', r') ∧
      IsDurable options n' e' r' a' := by
  -- Names, engine, machine and archive vary: each event leads to others that are durable as well.
  induction events generalizing n e r a with
  | nil => exact ⟨n, e, r, a, rfl, h⟩
  | cons ev rest ih =>
    rw [MapNames.neverReused, Bool.and_eq_true] at hnames
    rw [List.countP_cons] at hnew hlsn
    obtain ⟨e₁, a₁, hfirst, hdurable, hcount, hlater⟩ :=
      h.undergo hnames.1 hnew (by omega)
    obtain ⟨n', e', r', a', hrest, hlast⟩ := ih hdurable hnames.2 hlater (by omega)
    refine ⟨n', e', r', a', ?_, hlast⟩
    rw [Engine.runBeside, hfirst]
    exact hrest

end IsDurable

/-! ## The main statement -/

/-- An engine that was just opened over an empty log has nothing to recover. -/
theorem IsDurable.opened {options : LogOptions} {settings : Settings} {catalog : Catalog}
    {device device' : Device} {log : RedoLog} {metrics : Option Metrics} {e : Engine}
    (hready : catalog.IsReady) (hnodup : catalog.store.committed.keys.Nodup)
    (hempty : device.bytes = []) (hfaults : device.faults = .none)
    (hlog : RedoLog.openOn options device = (.ok log, device'))
    (hopen : Engine.openWith settings catalog (some log) metrics = .ok e) :
    ∃ a, IsDurable options ⟨e.maps.contains, fun _ => false⟩ e (.ofEngine e) a ∧ a.frames = [] := by
  have hreopens :=
    Engine.isReopenable_of_openWith hready hnodup hempty hfaults hlog hopen
  obtain ⟨-, maps, nextMapId, rfl, -, hnone⟩ := Engine.eq_of_openWith hready hnodup hopen
  refine ⟨⟨codecBook maps, [], []⟩, ⟨?_, hreopens, .nil,
    fun name => ?_, fun {p} _ => ?_, rfl, fun {name} hclosed _ => ⟨fun {p} _ => ?_, ?_, ?_⟩⟩, rfl⟩
  · -- Maps that were just opened have no slots.
    exact (Engine.isQuiet_of_bare rfl hnone).agrees
  · -- The open maps have their codecs from the catalog.
    show codecsOf maps name = if maps.contains name then some (codecBook maps name) else none
    rw [← isSome_codecsOf]
    cases hc : codecsOf maps name <;> simp [codecBook, hc]
  · -- Nothing is committed in maps that were just opened.
    show (slotAt maps p).bind Version.payload = none
    rw [hnone]
    rfl
  · show (slotAt maps p).bind Version.payload = none
    rw [hnone]
    rfl
  · intro t p _
    rfl
  · intro record hrecord
    cases hrecord

/-- Take an engine that is opened over a catalog and an empty log, both without faults, and any
events in which no map is created under the name of one that was dropped before. Whenever the engine
is lost, another one can be opened in its place and recovered. It has the maps that are open, and
their slots hold what was committed last.

The numbers of frames and of transactions are words: the last frame must have a number after it, and
no more transactions are started than there are numbers. -/
theorem restart_restores_committed {options : LogOptions} {settings : Settings} {catalog : Catalog}
    {device device' : Device} {log : RedoLog} {metrics : Option Metrics} {e : Engine}
    (hready : catalog.IsReady) (hnodup : catalog.store.committed.keys.Nodup)
    (hempty : device.bytes = []) (hfaults : device.faults = .none)
    (hlog : RedoLog.openOn options device = (.ok log, device'))
    (hopen : Engine.openWith settings catalog (some log) metrics = .ok e)
    (events : List EngineEvent)
    (hnames : MapNames.neverReused ⟨e.maps.contains, fun _ => false⟩ events = true)
    (hbegins : events.countP EngineEvent.isBegin ≤ UInt64.size)
    (hcommits : options.startLsn.val.toNat + events.countP EngineEvent.isCommit < UInt64.size) :
    ∃ e₁ r, e.runBeside options (.ofEngine e) events = .ok (e₁, r) ∧
      ∃ e₂, e₁.restart options = .ok e₂ ∧
        (∀ name, e₂.maps.contains name = r.isOpen name) ∧
        (∀ name, codecsOf e₂.maps name = codecsOf e₁.maps name) ∧
        ∀ p, r.isOpen p.map = true →
          slotAt e₂.maps p = (r.committed p).map fun v => .settled (some v) := by
  obtain ⟨a, hfirst, hframes⟩ := IsDurable.opened hready hnodup hempty hfaults hlog hopen
  -- An engine that was just opened has no transactions.
  have hlive : e.live = Table.empty := by
    obtain ⟨-, maps, nextMapId, rfl, -, -⟩ := Engine.eq_of_openWith hready hnodup hopen
    rfl
  have hnew : (OverlayMachine.ofEngine e).HasNumbers (events.countP EngineEvent.isBegin) :=
    ⟨hbegins, fun i _ => by simp [OverlayMachine.ofEngine, hlive]⟩
  obtain ⟨n, e₁, r, a₁, hrun, hdurable⟩ :=
    hfirst.runBeside events hnames hnew (by rw [hframes]; exact hcommits)
  obtain ⟨e₂, hrestart, hlast, hslots⟩ := hdurable.restart
  refine ⟨e₁, r, hrun, e₂, hrestart, fun name => ?_, fun name => ?_, hslots⟩
  · -- The maps that are open at the end are those of the machine.
    rw [← hlast.isOpen_eq]
    rfl
  · rw [hlast.codecs, hdurable.codecs]
    rfl

/-- A row is committed, its map stays, and another map is dropped. The engine then stops while the
row is overwritten, and a restart brings the committed row back. -/
theorem restart_restores_committed_of_lost_overwrite :
    let options := LogOptions.basic 7 .always
    let p : Place := ⟨"m", .int 7⟩
    let events : List EngineEvent :=
      [.createMap "m" .int64 .int64, .createMap "old" .text .text, .call (.begin none),
        .call (.put ⟨1⟩ p (.int 1)), .call (.commit ⟨1⟩), .dropMap "old", .restart,
        .call (.begin none), .call (.put ⟨1⟩ p (.int 2))]
    ∃ log device e, RedoLog.openOn options (Device.ofBytes []) = (.ok log, device) ∧
      Engine.openWith .basic .inMemory (some log) none = .ok e ∧
      MapNames.neverReused ⟨e.maps.contains, fun _ => false⟩ events = true ∧
      ∃ e₁ r, e.runBeside options (.ofEngine e) events = .ok (e₁, r) ∧
        ∃ e₂, e₁.restart options = .ok e₂ ∧ e₂.maps.contains "m" = true ∧
          e₂.maps.contains "old" = false ∧ slotAt e₂.maps p = some (.settled (some (.int 1))) := by
  intro options p events
  let log := RedoLog.fresh options
  have hlog : RedoLog.openOn options (Device.ofBytes []) = (.ok log, log.device) :=
    RedoLog.openOn_fresh options
  let e := Engine.bare .basic .inMemory (some log) none
  have hopen : Engine.openWith .basic .inMemory (some log) none = .ok e := rfl
  have hnames : MapNames.neverReused ⟨e.maps.contains, fun _ => false⟩ events = true := by decide
  obtain ⟨e₁, r, hrun, e₂, hrestart, hopen₂, -, hslots⟩ :=
    restart_restores_committed Catalog.isReady_inMemory List.nodup_nil rfl rfl hlog hopen events
      hnames (by decide) (by decide)
  -- What the machine of overlays has committed at the end.
  have hend : ((e.runBeside options (.ofEngine e) events).toOption.map fun x =>
      (x.2.isOpen "m", x.2.isOpen "old", x.2.committed p)) =
        some (true, false, some (.int 1)) := by decide +kernel
  rw [hrun] at hend
  have hvalues := Option.some.inj hend
  simp only [Prod.mk.injEq] at hvalues
  obtain ⟨hm, hold, hcommitted⟩ := hvalues
  refine ⟨_, _, e, hlog, hopen, hnames, e₁, r, hrun, e₂, hrestart, ?_, ?_, ?_⟩
  · rw [hopen₂, hm]
  · rw [hopen₂, hold]
  · rw [hslots p hm, hcommitted]
    rfl

end TxnStore
