import Mathlib.Data.List.MinMax
import Mathlib.Data.List.Nodup
import Mathlib.Order.Nat
import TxnStore.Proofs.Recovery.LostMaps

/-!
# Numbers of maps

A map is created under a number, and an engine gives its numbers one after the other, behind those
of all the maps that its catalog held when the engine was opened. As long as there are numbers left
behind these, no two maps of a catalog have the same number, whichever maps are dropped in between
and however often an engine is opened again. Once there is none left, an engine gives the greatest
number once more, or starts over.
-/

namespace TxnStore

open TxnStore.Action

/-! ## Numbers in a catalog -/

/-- The greatest number of a map among entries; zero if there is no map. -/
def CatalogEntry.topMapId (entries : List CatalogEntry) : Nat :=
  ((entries.filter fun e => e.kind = .map).map fun e => e.id.val.toNat).foldr max 0

namespace Catalog

def mapEntries (c : Catalog) : List CatalogEntry := c.entries.filter fun e => e.kind = .map

/-- The numbers of the maps, in the order of their entries. -/
def mapIds (c : Catalog) : List ObjectId := c.mapEntries.map CatalogEntry.id

/-- The greatest number of a map; zero if there is no map. -/
def topMapId (c : Catalog) : Nat := CatalogEntry.topMapId c.entries

/-- A catalog in memory with given entries; of two of one kind and name the later counts. -/
def withEntries (entries : List CatalogEntry) : Catalog :=
  .ofStore { CatalogStore.inMemory with committed := CatalogDocument.table entries }

theorem isIdle_withEntries (entries : List CatalogEntry) : (withEntries entries).IsIdle :=
  ⟨rfl, filed_table entries⟩

theorem isSorted_withEntries (entries : List CatalogEntry) :
    (withEntries entries).store.committed.IsSorted :=
  Table.isSorted_ofList _

variable {c c' : Catalog}

theorem mem_mapEntries {a : CatalogEntry} :
    a ∈ c.mapEntries ↔ a ∈ c.store.committed.values ∧ a.kind = .map := by
  rw [mapEntries, List.mem_filter, decide_eq_true_eq]
  rfl

theorem mapEntries_congr (h : c'.store.committed = c.store.committed) :
    c'.mapEntries = c.mapEntries := by
  rw [mapEntries, entries, CatalogStore.entries, h]
  rfl

/-- An entry that is written is the only one that is new. -/
theorem mem_mapEntries_of_insert {key : ObjectKey} {entry a : CatalogEntry}
    (h : c'.store.committed = c.store.committed.insert key entry) (ha : a ∈ c'.mapEntries) :
    a = entry ∨ a ∈ c.mapEntries := by
  obtain ⟨hvalue, hkind⟩ := mem_mapEntries.mp ha
  rw [h] at hvalue
  obtain ⟨b, hb, rfl⟩ := List.mem_map.mp hvalue
  rcases Table.mem_place hb with rfl | hold
  · exact .inl rfl
  · exact .inr (mem_mapEntries.mpr ⟨List.mem_map_of_mem hold, hkind⟩)

theorem mem_mapEntries_of_erase {key : ObjectKey} {a : CatalogEntry}
    (h : c'.store.committed = c.store.committed.erase key) (ha : a ∈ c'.mapEntries) :
    a ∈ c.mapEntries := by
  obtain ⟨hvalue, hkind⟩ := mem_mapEntries.mp ha
  rw [h] at hvalue
  obtain ⟨b, hb, rfl⟩ := List.mem_map.mp hvalue
  exact mem_mapEntries.mpr ⟨List.mem_map_of_mem (List.mem_filter.mp hb).1, hkind⟩

/-- An entry for a map is the one that is found under its name. -/
theorem IsIdle.mem_mapEntries_iff (h : c.IsIdle) (hsorted : c.store.committed.IsSorted)
    {a : CatalogEntry} :
    a ∈ c.mapEntries ↔ c.store.committed.get? ⟨.map, a.name⟩ = some a := by
  rw [mem_mapEntries]
  constructor
  · rintro ⟨hvalue, hkind⟩
    obtain ⟨b, hb, rfl⟩ := List.mem_map.mp hvalue
    have hkey : b.1 = ⟨.map, b.2.name⟩ := by rw [← h.filed b hb, CatalogEntry.key, hkind]
    exact hkey ▸ Table.find?_of_mem hsorted.nodup hb
  · intro hfound
    have hmem := Table.mem_of_find? hfound
    exact ⟨List.mem_map_of_mem hmem, congrArg ObjectKey.kind (h.filed _ hmem)⟩

theorem le_topMapId {a : CatalogEntry} (h : a ∈ c.mapEntries) : a.id.val.toNat ≤ c.topMapId :=
  List.le_max_of_le' 0 (List.mem_map_of_mem h) le_rfl

/-- Some map has the greatest number, unless this is zero. -/
theorem exists_topMapId (h : c.topMapId ≠ 0) :
    ∃ a ∈ c.mapEntries, a.id.val.toNat = c.topMapId := by
  have hsome : (c.mapEntries.map fun a => a.id.val.toNat) ≠ [] :=
    fun hnone => h (congrArg (List.foldr max 0) hnone)
  exact List.mem_map.mp (List.maximum_mem (List.foldr_max_of_ne_nil hsome).symm)

/-- The numbers of maps are distinct if no two entries for maps have the same. -/
theorem IsIdle.nodup_mapIds_iff (h : c.IsIdle) (hsorted : c.store.committed.IsSorted) :
    c.mapIds.Nodup ↔ ∀ a ∈ c.mapEntries, ∀ b ∈ c.mapEntries, a.id = b.id → a = b := by
  refine ⟨fun hnodup a ha b hb hid => List.inj_on_of_nodup_map hnodup ha hb hid, fun hids => ?_⟩
  -- Entries are kept under their own keys, hence none is there twice.
  have hkeys : c.entries.map CatalogEntry.key = c.store.committed.keys := by
    rw [entries, CatalogStore.entries, Table.values, List.map_map]
    exact List.map_congr_left h.filed
  have hentries : c.entries.Nodup :=
    List.Pairwise.of_map CatalogEntry.key (fun _ _ hne hab => hne (congrArg _ hab))
      (hkeys ▸ hsorted.nodup)
  exact (hentries.filter _).map_on hids

end Catalog

/-! ## Which numbers an engine gives -/

namespace Engine

/-- Whether a request takes a number for a map. It does so even if the map cannot be created. -/
def takesNumber (e : Engine) : EngineRequest → Bool
  | .createMap name _ _ => !e.maps.contains name
  | _ => false

theorem nextMapId_finish (e : Engine) (t : TxnId) : (e.finish t).nextMapId = e.nextMapId := by
  unfold finish
  split <;> rfl

end Engine

/-- No call of a transaction takes a number for a map. -/
theorem Effect.nextMapId {e e' : Engine} {c : TxnCall} {a : Except StoreError TxnAnswer}
    (h : Effect e c a e') : e'.nextMapId = e.nextMapId := by
  cases h with
  | refused | found | saved | unseen | closed | begun | written => rfl
  | @wentBack t txn n _ _ =>
    -- Undoing and finishing go through other fields of the engine.
    rw [Engine.afterRollbackTo, UndoLog.revertAll_eq]
    rfl
  | @ended t txn _ _ _ =>
    obtain ⟨maps, metrics, hsame⟩ := e.aborted_eq t txn.log
    rw [hsame]
    exact e.nextMapId_finish t
  | @undone t txn _ e₁ _ hlog =>
    obtain ⟨maps, metrics, hsame⟩ := e₁.aborted_eq t txn.log
    -- Logging does so too.
    obtain ⟨log, dirty, metrics', hlogged⟩ := Engine.logWrites_eq t txn.log e
    rw [hlog] at hlogged
    rw [hsame, show e₁ = _ from hlogged]
    exact Engine.nextMapId_finish _ t
  | @committed t txn e₁ _ hlog =>
    obtain ⟨maps, metrics, hsame⟩ := e₁.committed_eq t txn.log
    obtain ⟨log, dirty, metrics', hlogged⟩ := Engine.logWrites_eq t txn.log e
    rw [hlog] at hlogged
    rw [hsame, show e₁ = _ from hlogged]
    exact Engine.nextMapId_finish _ t

namespace Engine

variable {e e' : Engine}

theorem nextMapId_after (e : Engine) (q : EngineRequest) :
    (e.after q).nextMapId.val = e.nextMapId.val + UInt32.ofNat (e.takesNumber q).toNat := by
  cases q with
  | call c =>
    -- Calls take no numbers of maps.
    rw [after, (c.effect e).nextMapId]
    exact (UInt32.add_zero _).symm
  | dropMap name =>
    obtain ⟨catalog, maps, dirty, hsame⟩ := e.dropMap_eq name
    rw [after, hsame]
    exact (UInt32.add_zero _).symm
  | createMap name keyCodec valueCodec =>
    rw [after, createMap, runOn_bind, runOn_get]
    cases hopen : e.maps.contains name with
    | true => simp [hopen, takesNumber]
    | false =>
      simp only [hopen, takesNumber, Bool.false_eq_true, if_false, runOn_bind, runOn_set, onCatalog,
        runOn_onPart]
      -- The number is taken before the definition is stored.
      rcases (Catalog.persist (.ofMap e.nextMapId name ⟨keyCodec.name, valueCodec.name⟩)).runOn
        e.catalog with ⟨err | u, catalog⟩ <;> rfl

/-- A request adds no entry for a map, or takes a number and adds one entry with it. -/
theorem mapEntries_after (hidle : e.catalog.IsIdle) (hsorted : e.catalog.store.committed.IsSorted)
    (q : EngineRequest) :
    let c := (e.after q).catalog
    c.IsIdle ∧ c.store.committed.IsSorted ∧
      ((∀ a ∈ c.mapEntries, a ∈ e.catalog.mapEntries) ∨
        e.takesNumber q = true ∧ ∃ entry : CatalogEntry, entry.id = e.nextMapId ∧
          ∀ a ∈ c.mapEntries, a = entry ∨ a ∈ e.catalog.mapEntries) := by
  cases q with
  | call call =>
    -- Calls do not touch the catalog.
    rw [after, (call.effect e).catalog]
    exact ⟨hidle, hsorted, .inl fun _ ha => ha⟩
  | createMap name keyCodec valueCodec =>
    obtain ⟨catalog, nextMapId, hidle', hcases⟩ :=
      createMap_outcomes hidle name keyCodec valueCodec
    rcases hcases with ⟨err, hrun, hcommitted⟩ | ⟨hnew, hrun, hcommitted⟩
    · rw [after, hrun]
      -- A creation that fails adds no entry.
      exact ⟨hidle', hcommitted ▸ hsorted,
        .inl fun _ ha => Catalog.mapEntries_congr hcommitted ▸ ha⟩
    · rw [after, hrun]
      -- The entry that was added has the number that was next.
      refine ⟨hidle', ?_, .inr ⟨by simp [takesNumber, hnew], _, rfl,
        fun _ ha => Catalog.mem_mapEntries_of_insert hcommitted ha⟩⟩
      show catalog.store.committed.IsSorted
      rw [hcommitted]
      exact hsorted.insert _ _
  | dropMap name =>
    rcases dropMap_outcomes hidle name with
      ⟨-, hrun⟩ | ⟨catalog, hidle', ⟨err, hrun, -, hcommitted⟩ | ⟨hrun, hcommitted⟩⟩
    · -- A drop adds no entry, whether it succeeds or not.
      rw [after, hrun]
      exact ⟨hidle, hsorted, .inl fun _ ha => ha⟩
    · rw [after, hrun]
      exact ⟨hidle', hcommitted ▸ hsorted,
        .inl fun _ ha => Catalog.mapEntries_congr hcommitted ▸ ha⟩
    · rw [after, hrun]
      refine ⟨hidle', ?_, .inl fun _ ha => Catalog.mem_mapEntries_of_erase hcommitted ha⟩
      show catalog.store.committed.IsSorted
      rw [hcommitted]
      exact hsorted.erase _

/-- A map that is created has its number from the engine, and its entry is written in place of at
most the one of its name. -/
theorem createMap_ok (hidle : e.catalog.IsIdle) {name : String} {keyCodec valueCodec : Codec}
    (hrun : (createMap name keyCodec valueCodec).runOn e = (.ok (), e')) :
    e'.catalog.IsIdle ∧ e.maps.contains name = false ∧
      e'.catalog.store.committed = e.catalog.store.committed.insert ⟨.map, name⟩
        (.ofMap e.nextMapId name ⟨keyCodec.name, valueCodec.name⟩) := by
  obtain ⟨catalog, nextMapId, hidle', hcases⟩ := createMap_outcomes hidle name keyCodec valueCodec
  rcases hcases with ⟨err, hfails, -⟩ | ⟨hnew, hdone, hcommitted⟩
  · rw [hrun] at hfails
    cases hfails
  · rw [hrun] at hdone
    cases hdone
    exact ⟨hidle', hnew, hcommitted⟩

/-! ### Opening -/

theorem toNat_idAfter (id : ObjectId) :
    (idAfter id).val.toNat = min (id.val.toNat + 1) 0xFFFFFFFF := by
  unfold idAfter
  have hlt := id.val.toNat_lt
  -- The last number is repeated; all others are followed by the next.
  by_cases hlast : id.val = 0xFFFFFFFF
  · rw [if_pos hlast, hlast]
    decide
  · have hne : id.val.toNat ≠ 0xFFFFFFFF := fun h => hlast (UInt32.toNat.inj h)
    rw [if_neg hlast]
    show (id.val + 1).toNat = _
    rw [UInt32.toNat_add, show (1 : UInt32).toNat = 1 from rfl]
    omega

theorem nextMapId_restoreMap {entry : CatalogEntry} {d : MapDefinition}
    (h : restoreMap e entry d = .ok e') :
    e'.nextMapId.val.toNat =
      max e.nextMapId.val.toNat (min (entry.id.val.toNat + 1) 0xFFFFFFFF) := by
  obtain ⟨keyCodec, valueCodec, hkey, hvalue⟩ := restoreMap_eq_ok h
  rw [restoreMap, resolveCodec_eq_ok hkey, resolveCodec_eq_ok hvalue] at h
  simp only [bind, Except.bind, insertMap] at h
  split at h
  · cases h
  · cases h
    exact (UInt32.toNat_max _ _).trans (congrArg _ (toNat_idAfter entry.id))

/-- The numbers of an engine begin behind those of the entries that it takes in. -/
theorem nextMapId_restoreMaps {entries : List CatalogEntry} (hpos : 1 ≤ e.nextMapId.val.toNat)
    (h : restoreMaps e entries = .ok e') :
    e'.nextMapId.val.toNat =
      max e.nextMapId.val.toNat (min (CatalogEntry.topMapId entries + 1) 0xFFFFFFFF) := by
  -- The engine varies, since each map is taken in by the engine that has those before it.
  induction entries generalizing e with
  | nil =>
    cases h
    have htop : CatalogEntry.topMapId [] = 0 := rfl
    omega
  | cons entry rest ih =>
    rw [restoreMaps] at h
    cases hobject : entry.object with
    | sequence d =>
      simp only [hobject] at h
      -- Sequences do not count.
      have htop : CatalogEntry.topMapId (entry :: rest) = CatalogEntry.topMapId rest := by
        simp [CatalogEntry.topMapId, CatalogEntry.kind, hobject, CatalogObject.kind]
      rw [htop]
      exact ih hpos h
    | map d =>
      simp only [hobject] at h
      have htop : CatalogEntry.topMapId (entry :: rest) =
          max entry.id.val.toNat (CatalogEntry.topMapId rest) := by
        simp [CatalogEntry.topMapId, CatalogEntry.kind, hobject, CatalogObject.kind]
      cases hfirst : restoreMap e entry d with
      | error err => simp [hfirst] at h
      | ok e₁ =>
        simp only [hfirst] at h
        have hnext := nextMapId_restoreMap hfirst
        -- The next number is behind those so far, hence it is not zero.
        have hpos₁ : 1 ≤ e₁.nextMapId.val.toNat := hnext ▸ le_max_of_le_left hpos
        rw [ih hpos₁ h, hnext, htop, max_assoc, ← min_max_distrib_right, Nat.add_max_add_right]

/-- An engine is opened without a change to the catalog, and its numbers begin behind those of the
maps in it, as long as there are numbers. -/
theorem nextMapId_openWith {settings : Settings} {catalog : Catalog} {log : Option RedoLog}
    {metrics : Option Metrics} (h : openWith settings catalog log metrics = .ok e) :
    e.nextMapId.val.toNat = min (catalog.topMapId + 1) 0xFFFFFFFF := by
  rw [openWith] at h
  cases hsettings : settings.validate with
  | error err =>
    rw [hsettings] at h
    cases h
  | ok u =>
    rw [hsettings] at h
    -- The numbers start at one.
    have hfirst : (bare settings catalog log metrics).nextMapId.val.toNat = 1 := rfl
    have hnext := nextMapId_restoreMaps (Nat.le_of_eq hfirst.symm) h
    rw [hnext, hfirst]
    exact max_eq_right (by omega)

theorem catalog_openWith {settings : Settings} {catalog : Catalog} {log : Option RedoLog}
    {metrics : Option Metrics} (hidle : catalog.IsIdle)
    (hsorted : catalog.store.committed.IsSorted)
    (h : openWith settings catalog log metrics = .ok e) :
    e.catalog = catalog ∧ Defines catalog.store.committed e.maps := by
  obtain ⟨-, maps, nextMapId, rfl, hdefines, -⟩ :=
    defines_of_openWith hidle.filed hsorted.nodup h
  exact ⟨rfl, hdefines⟩

end Engine

/-! ## Engines one after the other -/

/-- What is done with a catalog and the engines opened over it. -/
inductive MapStep where
  /-- Another engine is opened over the entries of the catalog, which may be kept elsewhere by then.
  If it cannot be opened, the one before stays in use. -/
  | reopen (backing : CatalogBacking) (stats : CatalogStats) (settings : Settings)
      (log : Option RedoLog) (metrics : Option Metrics)
  /-- A request, during which certain calls of the catalog fail. -/
  | request (faults : CatalogFaults) (q : EngineRequest)
  | registerMap (m : VersionMap)
  | recover

/-- An engine with what tells the numbers that it gives. -/
structure MapNumbering where
  engine : Engine
  /-- The greatest number of a map when the engine was opened. -/
  top : Nat
  /-- How many numbers were taken since. -/
  taken : Nat

namespace MapNumbering

/-- The numbers of an engine that was just opened. -/
def opened (e : Engine) : MapNumbering := ⟨e, e.catalog.topMapId, 0⟩

/-- The number that is taken next. The first one comes behind the greatest, if there is such a
number, and else is the greatest one itself; behind the last number there is, they start over. -/
def next (x : MapNumbering) : ObjectId := ⟨UInt32.ofNat (min (x.top + 1) 0xFFFFFFFF + x.taken)⟩

/-- Whether there is a number left behind those of the catalog and those that were taken. -/
def hasNext (x : MapNumbering) : Bool := x.top + x.taken < 0xFFFFFFFF

def withCatalogFaults (x : MapNumbering) (faults : CatalogFaults) : MapNumbering :=
  { x with engine := x.engine.withCatalogFaults faults }

def serve (x : MapNumbering) (q : EngineRequest) : MapNumbering :=
  { x with engine := x.engine.after q, taken := x.taken + (x.engine.takesNumber q).toNat }

def after (x : MapNumbering) : MapStep → MapNumbering
  | .reopen backing stats settings log metrics =>
    let store := { x.engine.catalog.store with backing }
    match Engine.openWith settings ⟨store, stats⟩ log metrics with
    | .ok e => opened e
    | .error _ => x
  | .request faults q => (x.withCatalogFaults faults).serve q
  | .registerMap m => { x with engine := ((Engine.registerMap m).runOn x.engine).2 }
  | .recover => { x with engine := (Engine.recover.runOn x.engine).2 }

def run (x : MapNumbering) (steps : List MapStep) : MapNumbering := steps.foldl after x

/-- Whether there is a number left if a step takes one. -/
def hasNextFor (x : MapNumbering) : MapStep → Bool
  | .request _ q => !x.engine.takesNumber q || x.hasNext
  | _ => true

/-- Whether this is so for steps one after the other. -/
def hasNextForAll (x : MapNumbering) : List MapStep → Bool
  | [] => true
  | s :: rest => x.hasNextFor s && (x.after s).hasNextForAll rest

/-! ### What each step keeps -/

/-- The next number is that of the engine, and it comes behind those of all maps as long as there is
one left. -/
structure IsInOrder (x : MapNumbering) : Prop where
  idle : x.engine.catalog.IsIdle
  sorted : x.engine.catalog.store.committed.IsSorted
  next_eq : x.engine.nextMapId = x.next
  within : ∀ a ∈ x.engine.catalog.mapEntries, a.id.val.toNat ≤ x.top + x.taken

variable {x : MapNumbering}

theorem toNat_next (h : x.hasNext = true) : x.next.val.toNat = x.top + x.taken + 1 := by
  have hlt : x.top + x.taken < 0xFFFFFFFF := of_decide_eq_true h
  rw [next, UInt32.toNat_ofNat', min_eq_left (by omega)]
  omega

/-- What is taken is never further than one behind the greatest number, counted on from there. -/
theorem toNat_next_le (x : MapNumbering) : x.next.val.toNat ≤ x.top + (x.taken + 1) := by
  rw [next, UInt32.toNat_ofNat']
  have hmod := Nat.mod_le (min (x.top + 1) 0xFFFFFFFF + x.taken) (2 ^ 32)
  have hmin := min_le_left (x.top + 1) 0xFFFFFFFF
  omega

theorem isInOrder_opened {settings : Settings} {catalog : Catalog} {log : Option RedoLog}
    {metrics : Option Metrics} {e : Engine} (hidle : catalog.IsIdle)
    (hsorted : catalog.store.committed.IsSorted)
    (hopen : Engine.openWith settings catalog log metrics = .ok e) :
    (opened e).IsInOrder := by
  obtain ⟨rfl, -⟩ := Engine.catalog_openWith hidle hsorted hopen
  have hval : e.nextMapId.val = UInt32.ofNat (min (e.catalog.topMapId + 1) 0xFFFFFFFF) :=
    Engine.nextMapId_openWith hopen ▸ UInt32.ofNat_toNat.symm
  exact ⟨hidle, hsorted, congrArg ObjectId.mk hval, fun _ ha => Catalog.le_topMapId ha⟩

namespace IsInOrder

/-- A number that is left is that of no map. -/
theorem lt_next (h : x.IsInOrder) (hleft : x.hasNext = true) {a : CatalogEntry}
    (ha : a ∈ x.engine.catalog.mapEntries) : a.id.val < x.next.val := by
  rw [UInt32.lt_iff_toNat_lt, toNat_next hleft]
  exact Nat.lt_succ_of_le (h.within a ha)

theorem withCatalogFaults (h : x.IsInOrder) (faults : CatalogFaults) :
    (x.withCatalogFaults faults).IsInOrder :=
  ⟨h.idle.withFaults faults, h.sorted, h.next_eq, h.within⟩

theorem serve (h : x.IsInOrder) (q : EngineRequest) : (x.serve q).IsInOrder := by
  obtain ⟨hidle, hsorted, hentries⟩ := Engine.mapEntries_after h.idle h.sorted q
  refine ⟨hidle, hsorted, ?_, fun a ha => ?_⟩
  · -- The next number moves on as numbers are taken.
    have hval := x.engine.nextMapId_after q
    rw [h.next_eq, MapNumbering.next, ← UInt32.ofNat_add, Nat.add_assoc] at hval
    exact congrArg ObjectId.mk hval
  · show a.id.val.toNat ≤ x.top + (x.taken + (x.engine.takesNumber q).toNat)
    -- An entry is old, or it has the number that was taken just now.
    rcases hentries with hsame | ⟨htakes, entry, hid, hnew⟩
    · exact (h.within a (hsame a ha)).trans (by omega)
    · rcases hnew a ha with rfl | hold
      · rw [hid, h.next_eq, htakes]
        exact x.toNat_next_le
      · exact (h.within a hold).trans (by omega)

/-- A step serves a request, or changes maps only, or puts an engine over the same entries. -/
theorem after_cases (h : x.IsInOrder) (s : MapStep) :
    (∃ faults q, s = .request faults q) ∨
      (∃ maps, x.after s = { x with engine := { x.engine with maps } }) ∨
      ∃ e, x.after s = opened e ∧ (opened e).IsInOrder ∧
        e.catalog.mapIds = x.engine.catalog.mapIds := by
  cases s with
  | reopen backing stats settings log metrics =>
    let catalog : Catalog := ⟨{ x.engine.catalog.store with backing }, stats⟩
    have hidle : catalog.IsIdle := ⟨h.idle.staged, h.idle.filed⟩
    cases hopen : Engine.openWith settings catalog log metrics with
    -- An engine that cannot be opened leaves things as they were.
    | error err => exact .inr (.inl ⟨x.engine.maps, by rw [MapNumbering.after, hopen]⟩)
    | ok e =>
      have hids : e.catalog.mapIds = x.engine.catalog.mapIds := by
        rw [(Engine.catalog_openWith hidle h.sorted hopen).1]
        rfl
      exact .inr (.inr ⟨e, by rw [MapNumbering.after, hopen],
        isInOrder_opened hidle h.sorted hopen, hids⟩)
  | request faults q => exact .inl ⟨faults, q, rfl⟩
  | registerMap m =>
    rcases x.engine.registerMap_outcomes m with hsame | ⟨-, hsame⟩ <;>
      exact .inr (.inl ⟨_, by rw [MapNumbering.after, hsame]⟩)
  | recover =>
    obtain ⟨maps, hsame⟩ := x.engine.recover_eq
    exact .inr (.inl ⟨maps, by rw [MapNumbering.after, hsame]⟩)

theorem after (h : x.IsInOrder) (s : MapStep) : (x.after s).IsInOrder := by
  rcases h.after_cases s with ⟨faults, q, rfl⟩ | ⟨maps, hsame⟩ | ⟨e, hsame, hopened, -⟩
  · exact (h.withCatalogFaults faults).serve q
  · rw [hsame]
    exact ⟨h.idle, h.sorted, h.next_eq, h.within⟩
  · rw [hsame]
    exact hopened

theorem run (h : x.IsInOrder) (steps : List MapStep) : (x.run steps).IsInOrder := by
  induction steps generalizing x with
  | nil => exact h
  | cons s rest ih => exact ih (h.after s)

/-! ### Numbers that stay distinct -/

/-- With a number left for it, a request leaves the numbers of the maps distinct. -/
theorem nodup_serve (h : x.IsInOrder) (hnodup : x.engine.catalog.mapIds.Nodup)
    {q : EngineRequest} (hleft : x.engine.takesNumber q = true → x.hasNext = true) :
    (x.serve q).engine.catalog.mapIds.Nodup := by
  obtain ⟨hidle, hsorted, hentries⟩ := Engine.mapEntries_after h.idle h.sorted q
  -- Entries with one number are one entry, as long as numbers are not used up.
  have hids := (h.idle.nodup_mapIds_iff h.sorted).mp hnodup
  refine (hidle.nodup_mapIds_iff hsorted).mpr fun a ha b hb heq => ?_
  rcases hentries with hsame | ⟨htakes, entry, hid, hnew⟩
  · exact hids a (hsame a ha) b (hsame b hb) heq
  · -- The number of the new entry comes behind those of the others.
    have hother : ∀ c ∈ x.engine.catalog.mapEntries, c.id ≠ entry.id := by
      intro c hc hsame
      have hlt := h.lt_next (hleft htakes) hc
      rw [hsame, hid, h.next_eq] at hlt
      exact UInt32.lt_irrefl _ hlt
    rcases hnew a ha with rfl | holda <;> rcases hnew b hb with rfl | holdb
    · -- Both are new, one of them is, or both are old.
      rfl
    · exact absurd heq.symm (hother b holdb)
    · exact absurd heq (hother a holda)
    · exact hids a holda b holdb heq

theorem nodup_after (h : x.IsInOrder) (hnodup : x.engine.catalog.mapIds.Nodup) {s : MapStep}
    (hleft : x.hasNextFor s = true) : (x.after s).engine.catalog.mapIds.Nodup := by
  rcases h.after_cases s with ⟨faults, q, rfl⟩ | ⟨maps, hsame⟩ | ⟨e, hsame, -, hids⟩
  · -- Whether a number is taken does not depend on the faults.
    refine (h.withCatalogFaults faults).nodup_serve hnodup fun htakes => ?_
    have hunaware : (x.engine.withCatalogFaults faults).takesNumber q = x.engine.takesNumber q := by
      cases q <;> rfl
    have htakes : x.engine.takesNumber q = true := hunaware ▸ htakes
    have hnext : x.hasNext = true := by simpa [hasNextFor, htakes] using hleft
    exact hnext
  · -- The maps in memory have no part in the numbers of the catalog.
    rw [hsame]
    exact hnodup
  · rw [hsame]
    exact hids ▸ hnodup

theorem nodup_run (h : x.IsInOrder) (hnodup : x.engine.catalog.mapIds.Nodup)
    {steps : List MapStep} (hleft : x.hasNextForAll steps = true) :
    (x.run steps).engine.catalog.mapIds.Nodup := by
  induction steps generalizing x with
  | nil => exact hnodup
  | cons s rest ih =>
    obtain ⟨hfirst, hrest⟩ := Bool.and_eq_true_iff.mp hleft
    exact ih (h.after s) (h.nodup_after hnodup hfirst) hrest

end IsInOrder

end MapNumbering

namespace Engine

/-! ## Main result -/

/-- Take an engine that was opened over any catalog, and whatever is done with the two after that,
including the opening of other engines over the catalog. A map that is created gets the next number
of the engine in use, counted on from the greatest one that the catalog held when this engine was
opened. As long as there is such a number, it comes behind the numbers of all other maps in the
catalog; and if there is one for each map that is to be created, the numbers of the maps stay
distinct. -/
theorem maps_have_numbers_of_their_own {settings : Settings} {catalog : Catalog}
    {log : Option RedoLog} {metrics : Option Metrics} {e : Engine} (hidle : catalog.IsIdle)
    (hsorted : catalog.store.committed.IsSorted)
    (hopen : openWith settings catalog log metrics = .ok e) (steps : List MapStep) :
    let x := (MapNumbering.opened e).run steps
    (∀ faults name keyCodec valueCodec e',
      (createMap name keyCodec valueCodec).runOn (x.engine.withCatalogFaults faults) =
          (.ok (), e') →
        e'.catalog.entry? ⟨.map, name⟩ =
            some (.ofMap x.next name ⟨keyCodec.name, valueCodec.name⟩) ∧
          (x.hasNext = true → ∀ other ∈ e'.catalog.mapEntries, other.name ≠ name →
            other.id.val < x.next.val)) ∧
    (catalog.mapIds.Nodup → (MapNumbering.opened e).hasNextForAll steps = true →
      x.engine.catalog.mapIds.Nodup) := by
  intro x
  have hstart := MapNumbering.isInOrder_opened hidle hsorted hopen
  have hx : x.IsInOrder := hstart.run steps
  refine ⟨fun faults name keyCodec valueCodec e' hrun => ?_, fun hnodup hleft => ?_⟩
  · -- The new entry has the next number.
    obtain ⟨hidle', -, hcommitted⟩ := createMap_ok (hx.idle.withFaults faults) hrun
    have hentry : e'.catalog.store.committed = x.engine.catalog.store.committed.insert ⟨.map, name⟩
        (.ofMap x.next name ⟨keyCodec.name, valueCodec.name⟩) := hx.next_eq ▸ hcommitted
    refine ⟨?_, fun hleft other hother hname => ?_⟩
    · rw [hidle'.entry?_eq, hentry, Table.get?_insert_self]
    · -- The other entries were there before, and their numbers are smaller.
      rcases Catalog.mem_mapEntries_of_insert hentry hother with rfl | hold
      · exact absurd rfl hname
      · exact hx.lt_next hleft hold
  · rw [← (catalog_openWith hidle hsorted hopen).1] at hnodup
    exact hstart.nodup_run hnodup hleft

/-- Two numbers are left behind those of the maps. Both are taken, one of them by a map that cannot
be created; the other map is dropped, and the next engine takes its number again. One more map gets
the last number. -/
theorem maps_have_numbers_of_their_own_of_failed_creation :
    let c := Catalog.withEntries
      [.ofMap ⟨0xFFFFFFFD⟩ "a" ⟨"int64", "text"⟩, .ofMap ⟨0⟩ "z" ⟨"text", "tagged"⟩]
    let steps : List MapStep :=
      [.request .none (.createMap "b" .int64 .text), .request .atCommit (.createMap "c" .text .text),
        .request .none (.dropMap "b"), .reopen (.memory .none) ⟨0, 0, 0⟩ .basic none none,
        .request .none (.createMap "c" .text .text)]
    c.mapIds.Nodup ∧ ∃ e, openWith .basic c none none = .ok e ∧
      let x := (MapNumbering.opened e).run steps
      (MapNumbering.opened e).hasNextForAll steps = true ∧ x.engine.catalog.mapIds.Nodup ∧
      x.hasNext = true ∧ ∃ e',
        (createMap "d" .int64 .int64).runOn (x.engine.withCatalogFaults .none) = (.ok (), e') ∧
        e'.catalog.entry? ⟨.map, "d"⟩ =
          some (.ofMap ⟨0xFFFFFFFF⟩ "d" ⟨"int64", "int64"⟩) ∧
        ∀ other ∈ e'.catalog.mapEntries, other.name ≠ "d" → other.id.val < 0xFFFFFFFF := by
  intro c steps
  have hruns : ((openWith .basic c none none).toOption.map fun e =>
      let x := (MapNumbering.opened e).run steps
      ((MapNumbering.opened e).hasNextForAll steps, x.hasNext, x.next,
        ((createMap "d" .int64 .int64).runOn (x.engine.withCatalogFaults .none)).1.toOption)) =
      some (true, true, ⟨0xFFFFFFFF⟩, some ()) := by decide +kernel
  have hnodup : c.mapIds.Nodup := by decide +kernel
  obtain ⟨e, hopen, hruns⟩ := Option.map_eq_some_iff.mp hruns
  have hopen := eq_ok_of_toOption hopen
  obtain ⟨hleft, hruns⟩ := Prod.mk.inj hruns
  obtain ⟨hnext, hruns⟩ := Prod.mk.inj hruns
  obtain ⟨hnumber, hruns⟩ := Prod.mk.inj hruns
  have hcreated := eq_ok_of_toOption_fst hruns
  obtain ⟨hnew, hdistinct⟩ := maps_have_numbers_of_their_own (Catalog.isIdle_withEntries _)
    (Catalog.isSorted_withEntries _) hopen steps
  obtain ⟨hentry, hbehind⟩ := hnew _ _ _ _ _ hcreated
  rw [hnumber] at hentry hbehind
  exact ⟨hnodup, e, hopen, hleft, hdistinct hnodup hleft, hnext, _, hcreated, hentry, hbehind hnext⟩

/-- Where a map of the catalog has the greatest number there is, the first map that an engine
creates is given the number of another one. -/
theorem not_nodup_of_greatest {settings : Settings} {catalog : Catalog} {log : Option RedoLog}
    {metrics : Option Metrics} {e e' : Engine} {name : String} {keyCodec valueCodec : Codec}
    (hidle : catalog.IsIdle) (hsorted : catalog.store.committed.IsSorted)
    (htop : catalog.topMapId = 0xFFFFFFFF)
    (hopen : openWith settings catalog log metrics = .ok e)
    (hrun : (createMap name keyCodec valueCodec).runOn e = (.ok (), e')) :
    ¬e'.catalog.mapIds.Nodup := by
  obtain ⟨rfl, hdefines⟩ := catalog_openWith hidle hsorted hopen
  obtain ⟨hidle', hnew, hcommitted⟩ := createMap_ok hidle hrun
  have hsorted' : e'.catalog.store.committed.IsSorted := hcommitted ▸ hsorted.insert _ _
  obtain ⟨other, hother, hgreatest⟩ := Catalog.exists_topMapId (by rw [htop]; decide)
  have hfound := (hidle.mem_mapEntries_iff hsorted).mp hother
  -- The map with the greatest number is open, hence it is another one.
  have hname : other.name ≠ name := by
    rintro rfl
    have hopened := hdefines.contains_eq other.name
    rw [Table.contains, hfound, hnew] at hopened
    cases hopened
  have hkey : (⟨.map, other.name⟩ : ObjectKey) ≠ ⟨.map, name⟩ := by simpa using hname
  intro hnodup
  have hids := (hidle'.nodup_mapIds_iff hsorted').mp hnodup
  have hkept : other ∈ e'.catalog.mapEntries := by
    rw [hidle'.mem_mapEntries_iff hsorted', hcommitted, Table.get?_insert_ne _ hkey, hfound]
  have hadded : CatalogEntry.ofMap e.nextMapId name ⟨keyCodec.name, valueCodec.name⟩ ∈
      e'.catalog.mapEntries := by
    rw [hidle'.mem_mapEntries_iff hsorted', hcommitted]
    exact Table.get?_insert_self _ _ _
  -- The next number is the greatest there is, which the other map has already.
  have hid : other.id = e.nextMapId := by
    refine congrArg ObjectId.mk (UInt32.toNat.inj ?_)
    rw [hgreatest, nextMapId_openWith hopen, htop]
    rfl
  exact hname (congrArg CatalogEntry.name (hids other hkept _ hadded hid))

/-- One map has the greatest number there is, and the next map that is created is given it again. -/
theorem createMap_repeats_number :
    let c := Catalog.withEntries [.ofMap ⟨0xFFFFFFFF⟩ "a" ⟨"int64", "text"⟩]
    c.IsIdle ∧ c.store.committed.IsSorted ∧ c.mapIds.Nodup ∧
      ∃ e e', openWith .basic c none none = .ok e ∧
        (createMap "b" .int64 .text).runOn e = (.ok (), e') ∧ ¬e'.catalog.mapIds.Nodup := by
  intro c
  have hidle : c.IsIdle := Catalog.isIdle_withEntries _
  have hsorted : c.store.committed.IsSorted := Catalog.isSorted_withEntries _
  have hruns : ((openWith .basic c none none).toOption.map fun e =>
      ((createMap "b" .int64 .text).runOn e).1.toOption) = some (some ()) := by decide +kernel
  obtain ⟨e, hopen, hcreated⟩ := Option.map_eq_some_iff.mp hruns
  have hopen := eq_ok_of_toOption hopen
  have hcreated := eq_ok_of_toOption_fst hcreated
  have htop : c.topMapId = 0xFFFFFFFF := by decide +kernel
  exact ⟨hidle, hsorted, by decide +kernel, e, _, hopen, hcreated,
    not_nodup_of_greatest hidle hsorted htop hopen hcreated⟩

end Engine

end TxnStore
