import TxnStore.Proofs.Recovery.Reopening

/-!
# Maps that are created again

A redo record has the name of its map and nothing else of it, and the log is told neither of the
creation nor of the drop of a map. A replay therefore puts the records of all maps that ever had a
name into the map that has the name now. What it restores are the rows that were committed since
that map was created and, besides, such rows of earlier maps of the name over which nothing was
committed since; and it fails on records that were written with codecs other than those of the map.
-/

namespace TxnStore

open TxnStore.Action

/-! ## Committed writes -/

structure CommittedWrite extends LoggedRecord where
  /-- How many maps of the name had been created when this one was committed to. -/
  life : Nat
deriving DecidableEq, Repr

/-- What was committed to the maps of an engine. -/
structure Chronicle where
  /-- How many maps of a name were created. -/
  life : String → Nat
  /-- The committed writes, the oldest first. -/
  writes : List CommittedWrite

namespace Chronicle

/-- Nothing was created or committed yet. -/
def blank : Chronicle := ⟨fun _ => 0, []⟩

/-- The payloads that writes leave. -/
def leftBy (writes : List CommittedWrite) : Place → Option Value :=
  RedoRecord.applyAll (fun _ => none) (writes.map fun w => w.record)

/-- Whether a write was committed to the map that has the name now, or had it last. -/
def isCurrent (c : Chronicle) (w : CommittedWrite) : Bool := w.life = c.life w.record.map

/-- The row that was committed at a place since the map was created. -/
def row? (c : Chronicle) (p : Place) : Option Value := leftBy (c.writes.filter c.isCurrent) p

/-- Whether anything was committed at a place since the map was created. -/
def isTouched (c : Chronicle) (p : Place) : Bool :=
  c.writes.any fun w => c.isCurrent w && w.record.place = p

/-- The row of an earlier map of the name, at a place where nothing was committed since. -/
def survivor? (c : Chronicle) (p : Place) : Option Value :=
  if c.isTouched p then none else leftBy c.writes p

/-- Whether all writes for maps that are open were made with the codecs that the maps have. -/
def isReadable (c : Chronicle) (maps : Table String VersionMap) : Bool :=
  c.writes.all fun w =>
    !maps.contains w.record.map || w.codecs = codecBook maps w.record.map

/-! ### Events -/

/-- A map is created. -/
def create (c : Chronicle) (name : String) : Chronicle :=
  { c with life := fun other => if other = name then c.life name + 1 else c.life other }

/-- Records are committed to maps with the codecs of a book. -/
def commit (c : Chronicle) (codecs : CodecBook) (rs : List RedoRecord) : Chronicle :=
  { c with writes := c.writes ++ rs.map fun r => ⟨r.loggedWith codecs, c.life r.map⟩ }

/-- The chronicle after an event that an engine takes. -/
def step (c : Chronicle) (e : Engine) : EngineEvent → Chronicle
  | .call (.commit t) =>
    match ((Engine.commit t).runOn e).1 with
    | .ok _ => c.commit (codecBook e.maps) (e.recordsOf t)
    | .error _ => c
  | .createMap name keyCodec valueCodec =>
    match ((Engine.createMap name keyCodec valueCodec).runOn e).1 with
    | .ok _ => c.create name
    | .error _ => c
  | _ => c

/-! ### Writes and what they leave -/

variable {c : Chronicle} {p : Place}

/-- Only commits add to the writes. -/
theorem step_call {call : TxnCall} (h : call.isCommit = false) (e : Engine) :
    c.step e (.call call) = c := by
  cases call with
  | commit t => simp [TxnCall.isCommit] at h
  | _ => rfl

/-- Only the writes at a place count there. -/
theorem applyAll_filter_congr {f g : CommittedWrite → Bool} {writes : List CommittedWrite}
    {committed committed' : Place → Option Value}
    (h : ∀ w ∈ writes, w.record.place = p → f w = g w) (hsame : committed p = committed' p) :
    RedoRecord.applyAll committed ((writes.filter f).map fun w => w.record) p =
      RedoRecord.applyAll committed' ((writes.filter g).map fun w => w.record) p := by
  induction writes generalizing committed committed' with
  | nil => exact hsame
  | cons w rest ih =>
    have hrest : ∀ w ∈ rest, w.record.place = p → f w = g w := fun w' hw' =>
      h w' (List.mem_cons_of_mem _ hw')
    rw [List.filter_cons, List.filter_cons]
    by_cases hp : w.record.place = p
    · rw [h w List.mem_cons_self hp]
      -- The write is kept in both lists or in neither.
      split
      · apply ih hrest
        rw [RedoRecord.applyTo, RedoRecord.applyTo, if_pos hp.symm, if_pos hp.symm]
      · exact ih hrest hsame
    · -- A write at another place may be left out of one list and not of the other.
      have hskip : ∀ base, RedoRecord.applyTo base w.record p = base p := fun base =>
        if_neg (Ne.symm hp)
      split <;> split
      · exact ih hrest (by rw [hskip, hskip, hsame])
      · exact ih hrest (by rw [hskip, hsame])
      · exact ih hrest (by rw [hskip, hsame])
      · exact ih hrest hsame

theorem leftBy_append (writes more : List CommittedWrite) :
    leftBy (writes ++ more) =
      RedoRecord.applyAll (leftBy writes) (more.map fun w => w.record) := by
  rw [leftBy, List.map_append, RedoRecord.applyAll_append]
  rfl

theorem isTouched_iff : c.isTouched p = true ↔
    ∃ w ∈ c.writes, c.isCurrent w = true ∧ w.record.place = p := by
  simp [isTouched]

/-- Where nothing was committed since the map was created, it has no row. -/
theorem row?_of_not_isTouched (h : c.isTouched p = false) : c.row? p = none := by
  have hnone : ∀ r ∈ (c.writes.filter c.isCurrent).map fun w => w.record, r.place ≠ p := by
    intro r hr hp
    obtain ⟨w, hw, rfl⟩ := List.mem_map.mp hr
    obtain ⟨hmem, hcurrent⟩ := List.mem_filter.mp hw
    have htouched := isTouched_iff.mpr ⟨w, hmem, hcurrent, hp⟩
    rw [h] at htouched
    cases htouched
  exact RedoRecord.applyAll_of_forall_ne hnone

/-- Creating a map leaves the writes to maps of other names as current as they were. -/
theorem isCurrent_create_of_ne {name : String} {w : CommittedWrite} (h : w.record.map ≠ name) :
    (c.create name).isCurrent w = c.isCurrent w := by
  rw [isCurrent, isCurrent, create]
  simp only [if_neg h]

theorem row?_create_of_ne {name : String} (h : p.map ≠ name) :
    (c.create name).row? p = c.row? p := by
  refine applyAll_filter_congr (fun w _ hplace => isCurrent_create_of_ne ?_) rfl
  rwa [← hplace] at h

theorem isTouched_create_of_ne {name : String} (h : p.map ≠ name) :
    (c.create name).isTouched p = c.isTouched p := by
  have hsame : ∀ w : CommittedWrite, w.record.place = p →
      (c.create name).isCurrent w = c.isCurrent w := by
    intro w hplace
    rw [← hplace] at h
    exact isCurrent_create_of_ne h
  rw [Bool.eq_iff_iff, isTouched_iff, isTouched_iff]
  refine exists_congr fun w => and_congr_right fun _ => and_congr_left fun hplace => ?_
  rw [hsame w hplace]

/-- All records of a commit are current, and they take effect one after the other. -/
theorem row?_commit (c : Chronicle) (codecs : CodecBook) (rs : List RedoRecord) :
    (c.commit codecs rs).row? = RedoRecord.applyAll c.row? rs := by
  let more : List CommittedWrite := rs.map fun r => ⟨r.loggedWith codecs, c.life r.map⟩
  -- What is committed now belongs to the present life of its map.
  have hcurrent : ∀ w ∈ more, c.isCurrent w = true := by
    intro w hw
    obtain ⟨r, -, rfl⟩ := List.mem_map.mp hw
    exact decide_eq_true rfl
  have hrecords : more.map (fun w => w.record) = rs := by
    rw [List.map_map]
    exact List.map_id rs
  funext p
  show leftBy ((c.writes ++ more).filter c.isCurrent) p = _
  rw [List.filter_append, List.filter_eq_self.mpr hcurrent, leftBy_append, hrecords]
  rfl

/-! ### Lifetimes one after the other -/

/-- The maps of a name had their time one after the other: no write was committed to a map that is
yet to be created, and where something was committed to the present map, it was committed last. -/
structure IsSeparated (c : Chronicle) : Prop where
  lives : ∀ w ∈ c.writes, w.life ≤ c.life w.record.map
  last : ∀ {p}, c.isTouched p = true → leftBy c.writes p = c.row? p

theorem isSeparated_blank : blank.IsSeparated :=
  ⟨fun _ hw => absurd hw List.not_mem_nil, fun _ => rfl⟩

namespace IsSeparated

/-- Nothing was committed yet to a map that is just created. -/
theorem isTouched_create (h : c.IsSeparated) {name : String} (hp : p.map = name) :
    (c.create name).isTouched p = false := by
  rw [← Bool.not_eq_true, isTouched_iff]
  rintro ⟨w, hw, hcurrent, rfl⟩
  have hmap : w.record.map = name := hp
  have hlife : w.life = if w.record.map = name then c.life name + 1 else c.life w.record.map :=
    of_decide_eq_true hcurrent
  have hbefore := h.lives w hw
  rw [if_pos hmap] at hlife
  rw [hmap] at hbefore
  omega

theorem create (h : c.IsSeparated) (name : String) : (c.create name).IsSeparated := by
  refine ⟨fun w hw => ?_, fun {p} htouched => ?_⟩
  · -- A write that was current is old now, and no write is ahead of its map.
    have hlife := h.lives w hw
    show w.life ≤ if w.record.map = name then c.life name + 1 else c.life w.record.map
    split
    · next hname =>
      rw [hname] at hlife
      exact Nat.le_succ_of_le hlife
    · exact hlife
  · by_cases hname : p.map = name
    · rw [h.isTouched_create hname] at htouched
      cases htouched
    · -- The maps of other names are those that they were.
      rw [isTouched_create_of_ne hname] at htouched
      rw [row?_create_of_ne hname]
      exact h.last htouched

theorem commit (h : c.IsSeparated) (codecs : CodecBook) (rs : List RedoRecord) :
    (c.commit codecs rs).IsSeparated := by
  refine ⟨fun w hw => ?_, fun {p} htouched => ?_⟩
  · -- No write belongs to a life to come.
    rcases List.mem_append.mp hw with hold | hnew
    · exact h.lives w hold
    · obtain ⟨r, -, rfl⟩ := List.mem_map.mp hnew
      exact Nat.le_refl _
  · have hleft : leftBy (c.commit codecs rs).writes p =
        RedoRecord.applyAll (leftBy c.writes) rs p := by
      rw [Chronicle.commit, leftBy_append, List.map_map]
      exact congrArg (fun rs => RedoRecord.applyAll (leftBy c.writes) rs p) (List.map_id rs)
    rw [hleft, row?_commit]
    -- The last write at the place decides, whichever life it belongs to.
    by_cases hhere : ∃ r ∈ rs, r.place = p
    · exact RedoRecord.applyAll_of_exists hhere
    · have hnone : ∀ r ∈ rs, r.place ≠ p := fun r hr hp => hhere ⟨r, hr, hp⟩
      rw [RedoRecord.applyAll_of_forall_ne hnone, RedoRecord.applyAll_of_forall_ne hnone]
      -- What was committed here since the creation was committed before.
      obtain ⟨w, hw, hcurrent, hplace⟩ := isTouched_iff.mp htouched
      rcases List.mem_append.mp hw with hold | hnew
      · exact h.last (isTouched_iff.mpr ⟨w, hold, hcurrent, hplace⟩)
      · obtain ⟨r, hr, rfl⟩ := List.mem_map.mp hnew
        exact absurd hplace (hnone r hr)

/-- What all writes leave is the row of the map, or else a row of an earlier map. -/
theorem leftBy_eq (h : c.IsSeparated) (p : Place) :
    leftBy c.writes p = (c.survivor? p).or (c.row? p) := by
  unfold survivor?
  cases htouched : c.isTouched p with
  | true => exact h.last htouched
  | false =>
    rw [row?_of_not_isTouched htouched, Option.or_none]
    rfl

end IsSeparated

end Chronicle

/-! ## Engines and their chronicles -/

namespace Engine

/-- An engine and its chronicle after events one after the other. -/
def runWithChronicle (options : LogOptions) (e : Engine) (c : Chronicle) :
    List EngineEvent → Except StoreError (Engine × Chronicle)
  | [] => .ok (e, c)
  | ev :: rest =>
    match e.undergo options ev with
    | .error err => .error err
    | .ok e' => runWithChronicle options e' (c.step e ev) rest

/-- Whether the chronicle is readable whenever the engine is lost, and after the last event. -/
def staysReadable (options : LogOptions) (e : Engine) (c : Chronicle) : List EngineEvent → Bool
  | [] => c.isReadable e.maps
  | ev :: rest =>
    (ev ≠ .restart || c.isReadable e.maps) &&
      match e.undergo options ev with
      | .error _ => true
      | .ok e' => staysReadable options e' (c.step e ev) rest

end Engine

/-- The frames of the log have the writes of the chronicle. -/
structure IsChronicled (options : LogOptions) (e : Engine) (c : Chronicle) (frames : List Frame) :
    Prop where
  reopens : e.IsReopenable options frames
  stores : Stores frames (c.writes.map CommittedWrite.toLoggedRecord)
  separated : c.IsSeparated

namespace IsChronicled

variable {options : LogOptions} {e : Engine} {c : Chronicle} {frames : List Frame}

theorem commit (h : IsChronicled options e c frames) (t : TxnId)
    (hlsn : options.startLsn.val.toNat + frames.length + 1 < UInt64.size) :
    let ev := EngineEvent.call (.commit t)
    ∃ e' frames', e.undergo options ev = .ok e' ∧ IsChronicled options e' (c.step e ev) frames' ∧
      frames'.length ≤ frames.length + 1 := by
  intro ev
  have haction : (TxnCall.commit t).action = (fun _ => TxnAnswer.done) <$> Engine.commit t := rfl
  obtain ⟨answer, e', hrun, -, hcases⟩ := h.reopens.commit_cases t hlsn
  have hundergo : e.undergo options ev = .ok e' := by
    show Except.ok ((TxnCall.commit t).action.runOn e).2 = _
    rw [haction, runOn_map, hrun]
  rcases hcases with ⟨err, rfl, hreopens⟩ | ⟨frames', rfl, hreopens, hcount, hstores⟩
  · -- A commit that fails leaves the chronicle as it is.
    have hstep : c.step e ev = c := by simp only [Chronicle.step, ev, hrun]
    rw [hstep]
    exact ⟨e', frames, hundergo, ⟨hreopens, h.stores, h.separated⟩, Nat.le_succ _⟩
  · -- Its frame holds what the chronicle takes down.
    have hstep : c.step e ev = c.commit (codecBook e.maps) (e.recordsOf t) := by
      simp only [Chronicle.step, ev, hrun]
    rw [hstep]
    refine ⟨e', frames', hundergo, ⟨hreopens, ?_, h.separated.commit _ _⟩, hcount⟩
    have hlogged := hstores _ h.stores
    rw [Chronicle.commit, List.map_append, List.map_map]
    exact hlogged

theorem createMap (h : IsChronicled options e c frames) (name : String)
    (keyCodec valueCodec : Codec) :
    let ev := EngineEvent.createMap name keyCodec valueCodec
    IsChronicled options ((Engine.createMap name keyCodec valueCodec).runOn e).2 (c.step e ev)
      frames := by
  intro ev
  have hreopens := h.reopens.createMap name keyCodec valueCodec
  rcases hrun : (Engine.createMap name keyCodec valueCodec).runOn e with ⟨err | u, e'⟩
  · -- A creation that fails changes nothing, one that succeeds begins a life.
    have hstep : c.step e ev = c := by simp only [Chronicle.step, ev, hrun]
    rw [hrun] at hreopens
    rw [hstep]
    exact ⟨hreopens, h.stores, h.separated⟩
  · have hstep : c.step e ev = c.create name := by simp only [Chronicle.step, ev, hrun]
    rw [hrun] at hreopens
    rw [hstep]
    exact ⟨hreopens, h.stores, h.separated.create name⟩

/-- Another engine can be opened, and its maps hold what all committed writes leave. -/
theorem restart (h : IsChronicled options e c frames) (hreadable : c.isReadable e.maps = true) :
    ∃ e', e.restart options = .ok e' ∧ IsChronicled options e' c frames ∧
      (∀ name, codecsOf e'.maps name = codecsOf e.maps name) ∧
      ∀ p, e.maps.contains p.map = true → slotAt e'.maps p =
        ((c.survivor? p).or (c.row? p)).map fun v => .settled (some v) := by
  -- The records can be read, or the restart would not have been asked for.
  have hreads : ∀ l ∈ c.writes.map CommittedWrite.toLoggedRecord,
      e.maps.contains l.record.map = true → l.codecs = codecBook e.maps l.record.map := by
    intro l hl hopen
    obtain ⟨w, hw, rfl⟩ := List.mem_map.mp hl
    have hw' := List.all_eq_true.mp hreadable w hw
    simpa [hopen] using hw'
  obtain ⟨e', hrestart, hreopens, -, -, hcodecs, hslots⟩ := h.reopens.restart h.stores hreads
  refine ⟨e', hrestart, ⟨hreopens, h.stores, h.separated⟩, hcodecs, fun p hp => ?_⟩
  -- What is left is told by all writes, of whatever life.
  rw [hslots p hp, ← h.separated.leftBy_eq, List.map_map]
  rfl

/-- Every event keeps the chronicle, and a restart succeeds where it is readable. -/
theorem undergo (h : IsChronicled options e c frames) (ev : EngineEvent)
    (hreadable : ev = .restart → c.isReadable e.maps = true)
    (hlsn : options.startLsn.val.toNat + frames.length + (if ev.isCommit then 1 else 0) <
      UInt64.size) :
    ∃ e' frames', e.undergo options ev = .ok e' ∧ IsChronicled options e' (c.step e ev) frames' ∧
      frames'.length ≤ frames.length + (if ev.isCommit then 1 else 0) := by
  cases ev with
  | call call =>
    cases hcall : call.isCommit with
    | true =>
      cases call with
      | commit t => exact h.commit t hlsn
      | _ => simp [TxnCall.isCommit] at hcall
    | false =>
      -- Other calls than commits add nothing to the chronicle.
      rw [Chronicle.step_call hcall]
      exact ⟨_, frames, rfl, ⟨h.reopens.of_sameFooting (TxnCall.sameFooting hcall e), h.stores,
        h.separated⟩, Nat.le_add_right _ _⟩
  | createMap name keyCodec valueCodec =>
    exact ⟨_, frames, rfl, h.createMap name keyCodec valueCodec, Nat.le_add_right _ _⟩
  | dropMap name =>
    exact ⟨_, frames, rfl, ⟨h.reopens.dropMap name, h.stores, h.separated⟩, Nat.le_add_right _ _⟩
  | restart =>
    obtain ⟨e', hrestart, hchronicled, -⟩ := h.restart (hreadable rfl)
    exact ⟨e', frames, hrestart, hchronicled, Nat.le_add_right _ _⟩

theorem run (h : IsChronicled options e c frames) (events : List EngineEvent)
    (hreadable : e.staysReadable options c events = true)
    (hlsn : options.startLsn.val.toNat + frames.length + events.countP EngineEvent.isCommit <
      UInt64.size) :
    ∃ e' c' frames', e.runWithChronicle options c events = .ok (e', c') ∧
      IsChronicled options e' c' frames' ∧ c'.isReadable e'.maps = true := by
  -- Engine, chronicle and frames vary: each event leaves others of the same kind.
  induction events generalizing e c frames with
  | nil => exact ⟨e, c, frames, rfl, h, hreadable⟩
  | cons ev rest ih =>
    rw [Engine.staysReadable, Bool.and_eq_true] at hreadable
    rw [List.countP_cons] at hlsn
    -- A restart is asked for only where the records can be read.
    have hnow : ev = .restart → c.isReadable e.maps = true := by
      rintro rfl
      simpa using hreadable.1
    obtain ⟨e₁, frames₁, hfirst, hchronicled, hcount⟩ := h.undergo ev hnow (by omega)
    have hlater := hreadable.2
    rw [hfirst] at hlater
    obtain ⟨e', c', frames', hrest, hlast, hend⟩ := ih hchronicled hlater (by omega)
    refine ⟨e', c', frames', ?_, hlast, hend⟩
    rw [Engine.runWithChronicle, hfirst]
    exact hrest

end IsChronicled

/-! ## The main statement -/

/-- Take an engine that is opened over a catalog and an empty log, both without faults, and any
events, in which maps may be dropped and created again at will. If all committed writes to maps that
are open were made with the codecs that these maps have, whenever the engine is lost and at the end,
then another engine can be opened in its place and recovered. It has the same maps. At each place it
has the row that was committed since the map of that name was created, unless nothing was committed
there since and an earlier map of the name had a row there: then it has that row.

The numbers of frames are words: the last frame must have a number after it. -/
theorem Chronicle.restart_restores_rows {options : LogOptions} {settings : Settings}
    {catalog : Catalog} {device device' : Device} {log : RedoLog} {metrics : Option Metrics}
    {e : Engine} (hready : catalog.IsReady) (hnodup : catalog.store.committed.keys.Nodup)
    (hempty : device.bytes = []) (hfaults : device.faults = .none)
    (hlog : RedoLog.openOn options device = (.ok log, device'))
    (hopen : Engine.openWith settings catalog (some log) metrics = .ok e)
    (events : List EngineEvent)
    (hreadable : e.staysReadable options .blank events = true)
    (hcommits : options.startLsn.val.toNat + events.countP EngineEvent.isCommit < UInt64.size) :
    ∃ e₁ c, e.runWithChronicle options .blank events = .ok (e₁, c) ∧
      ∃ e₂, e₁.restart options = .ok e₂ ∧
        (∀ name, codecsOf e₂.maps name = codecsOf e₁.maps name) ∧
        ∀ p, e₁.maps.contains p.map = true →
          (c.survivor? p = none →
            slotAt e₂.maps p = (c.row? p).map fun v => .settled (some v)) ∧
          ∀ v, c.survivor? p = some v →
            c.row? p = none ∧ slotAt e₂.maps p = some (.settled (some v)) := by
  -- The engine was opened without a frame, and its chronicle is blank.
  have hreopens := Engine.isReopenable_of_openWith hready hnodup hempty hfaults hlog hopen
  have hfirst : IsChronicled options e .blank [] :=
    ⟨hreopens, .nil, Chronicle.isSeparated_blank⟩
  obtain ⟨e₁, c, frames, hrun, hchronicled, hend⟩ := hfirst.run events hreadable hcommits
  obtain ⟨e₂, hrestart, -, hcodecs, hslots⟩ := hchronicled.restart hend
  refine ⟨e₁, c, hrun, e₂, hrestart, hcodecs, fun p hp => ⟨fun hnone => ?_, fun v hv => ?_⟩⟩
  · -- Where nothing survives from an earlier life, the rows are those of the present one.
    rw [hslots p hp, hnone, Option.none_or]
  · refine ⟨?_, by rw [hslots p hp, hv]; rfl⟩
    -- A survivor shows only where the present life has left no trace.
    have huntouched : c.isTouched p = false := by
      cases ht : c.isTouched p with
      | false => rfl
      | true => simp [Chronicle.survivor?, ht] at hv
    exact Chronicle.row?_of_not_isTouched huntouched

/-- A map is created again after it was dropped, and one of its two keys is written to. The other
one comes back with the row of the earlier map. -/
theorem Chronicle.restart_restores_rows_of_two_keys :
    let options := LogOptions.basic 7 .always
    let events : List EngineEvent :=
      [.createMap "m" .int64 .text, .call (.begin none),
        .call (.put ⟨1⟩ ⟨"m", .int 1⟩ (.text "old")), .call (.put ⟨1⟩ ⟨"m", .int 2⟩ (.text "old")),
        .call (.commit ⟨1⟩), .dropMap "m", .createMap "m" .int64 .text, .call (.begin none),
        .call (.put ⟨2⟩ ⟨"m", .int 1⟩ (.text "new")), .call (.commit ⟨2⟩)]
    ∃ log device e, RedoLog.openOn options (Device.ofBytes []) = (.ok log, device) ∧
      Engine.openWith .basic .inMemory (some log) none = .ok e ∧
      e.staysReadable options .blank events = true ∧
      ∃ e₁ c, e.runWithChronicle options .blank events = .ok (e₁, c) ∧
        ∃ e₂, e₁.restart options = .ok e₂ ∧
          slotAt e₂.maps ⟨"m", .int 1⟩ = some (.settled (some (.text "new"))) ∧
          slotAt e₂.maps ⟨"m", .int 2⟩ = some (.settled (some (.text "old"))) := by
  intro options events
  let log := RedoLog.fresh options
  have hlog : RedoLog.openOn options (Device.ofBytes []) = (.ok log, log.device) :=
    RedoLog.openOn_fresh options
  let e := Engine.bare .basic .inMemory (some log) none
  have hopen : Engine.openWith .basic .inMemory (some log) none = .ok e := rfl
  have hreadable : e.staysReadable options .blank events = true := by decide +kernel
  obtain ⟨e₁, c, hrun, e₂, hrestart, -, hslots⟩ :=
    Chronicle.restart_restores_rows Catalog.isReady_inMemory List.nodup_nil rfl rfl hlog hopen
      events hreadable (by decide)
  -- What the chronicle tells of the two keys at the end.
  have hend : ((e.runWithChronicle options .blank events).toOption.map fun x =>
      (x.1.maps.contains "m", (x.2.survivor? ⟨"m", .int 1⟩, x.2.row? ⟨"m", .int 1⟩),
        x.2.survivor? ⟨"m", .int 2⟩)) =
      some (true, (none, some (.text "new")), some (.text "old")) := by decide +kernel
  rw [hrun] at hend
  have hvalues := Option.some.inj hend
  simp only [Prod.mk.injEq] at hvalues
  obtain ⟨hm, ⟨hnone, hrow⟩, hsurvivor⟩ := hvalues
  refine ⟨_, _, e, hlog, hopen, hreadable, e₁, c, hrun, e₂, hrestart, ?_, ?_⟩
  · rw [(hslots ⟨"m", .int 1⟩ hm).1 hnone, hrow]
    rfl
  · exact ((hslots ⟨"m", .int 2⟩ hm).2 _ hsurvivor).2

/-- The row of a dropped map is in the map that was created after it, in which nothing was ever
committed; and where the codecs of that map are others, the recovery ends with an error. -/
theorem Chronicle.restart_restores_dropped_row :
    let options := LogOptions.basic 7 .always
    let log := RedoLog.reopened options ⟨7, ⟨1⟩⟩ [] (Device.ofBytes (LogHeader.encode ⟨7, ⟨1⟩⟩))
    let e := Engine.bare .basic .inMemory (some log) none
    let p : Place := ⟨"m", .int 1⟩
    let events (keyCodec : Codec) : List EngineEvent :=
      [.createMap "m" .int64 .text, .call (.begin none), .call (.put ⟨1⟩ p (.text "old")),
        .call (.commit ⟨1⟩), .dropMap "m", .createMap "m" keyCodec .text]
    ((e.runWithChronicle options .blank (events .int64)).toOption.bind fun x =>
        (x.1.restart options).toOption.map fun e₂ => (x.2.row? p, slotAt e₂.maps p)) =
        some (none, some (.settled (some (.text "old")))) ∧
      ((e.runWithChronicle options .blank (events .text)).toOption.map fun x =>
        (x.1.restart options).isOk) = some false := by
  decide +kernel

end TxnStore
