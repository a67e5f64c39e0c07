import TxnStore.Proofs.Catalog.Batches
import TxnStore.Proofs.Recovery.Footing
import TxnStore.Proofs.Transactions.Slots

/-!
# Definitions of maps

The catalog has a definition for each open map, and for no other. A map gets one when it is created
and loses it when it is dropped, so that an engine that is opened over the catalog has the same maps
open, all of them empty.
-/

namespace TxnStore

open TxnStore.Action

/-! ## What the catalog says of maps -/

/-- The codecs of the map that an entry defines, if it defines one and both codecs are known. -/
def CatalogEntry.codecs? (e : CatalogEntry) : Option (Codec × Codec) :=
  match e.object with
  | .sequence _ => none
  | .map d =>
    (Codec.ofName? d.keyCodec).bind fun k => (Codec.ofName? d.valueCodec).map fun v => (k, v)

/-- There is an entry for each open map, with its codecs, and for no other map. -/
def Defines (t : Table ObjectKey CatalogEntry) (maps : Table String VersionMap) : Prop :=
  ∀ name, (t.get? ⟨.map, name⟩).map CatalogEntry.codecs? = (codecsOf maps name).map some

namespace Defines

variable {t : Table ObjectKey CatalogEntry} {maps maps' : Table String VersionMap}

theorem congr (h : Defines t maps) (hsame : ∀ name, codecsOf maps' name = codecsOf maps name) :
    Defines t maps' := by
  intro name
  rw [hsame, h]

theorem contains_eq (h : Defines t maps) (name : String) :
    t.contains ⟨.map, name⟩ = maps.contains name := by
  have hname := congrArg Option.isSome (h name)
  rw [Option.isSome_map, Option.isSome_map, isSome_codecsOf] at hname
  exact hname

theorem codecsOf_eq (h : Defines t maps) (h' : Defines t maps') (name : String) :
    codecsOf maps' name = codecsOf maps name :=
  Option.map_injective (fun _ _ => Option.some.inj) ((h' name).symm.trans (h name))

theorem insert (h : Defines t maps) (id : ObjectId) (name : String) (keyCodec valueCodec : Codec) :
    Defines (t.insert ⟨.map, name⟩ (.ofMap id name ⟨keyCodec.name, valueCodec.name⟩))
      (maps.insert name (VersionMap.empty name keyCodec valueCodec)) := by
  intro other
  rw [codecsOf, Table.get?_insert, Table.get?_insert]
  by_cases hother : other = name
  · simp [hother, CatalogEntry.codecs?, CatalogEntry.ofMap, VersionMap.empty]
  · -- Other maps have their definitions under other keys.
    have hkey : (⟨.map, other⟩ : ObjectKey) ≠ ⟨.map, name⟩ := by simpa using hother
    rw [if_neg hkey, if_neg hother]
    exact h other

theorem erase (h : Defines t maps) (name : String) :
    Defines (t.erase ⟨.map, name⟩) (maps.erase name) := by
  intro other
  rw [codecsOf, Table.get?_erase, Table.get?_erase]
  by_cases hother : other = name
  · simp [hother]
  · have hkey : (⟨.map, other⟩ : ObjectKey) ≠ ⟨.map, name⟩ := by simpa using hother
    rw [if_neg hkey, if_neg hother]
    exact h other

end Defines

/-- A catalog that takes every write and from which the open maps can be opened again. -/
structure Catalog.Restores (c : Catalog) (maps : Table String VersionMap) : Prop where
  ready : c.IsReady
  nodup : c.store.committed.keys.Nodup
  defines : Defines c.store.committed maps

namespace Catalog.Restores

variable {c : Catalog} {maps maps' : Table String VersionMap}

theorem congr (h : c.Restores maps) (hsame : ∀ name, codecsOf maps' name = codecsOf maps name) :
    c.Restores maps' :=
  ⟨h.ready, h.nodup, h.defines.congr hsame⟩

/-- Every entry of a map names codecs that are known. -/
theorem isSome_codecs? (h : c.Restores maps) {b : ObjectKey × CatalogEntry}
    (hb : b ∈ c.store.committed.toList) (hkind : b.2.kind = .map) :
    b.2.codecs?.isSome = true := by
  have hkey : b.1 = ⟨.map, b.2.name⟩ := by rw [← h.ready.filed b hb, CatalogEntry.key, hkind]
  have hfound : c.store.committed.get? ⟨.map, b.2.name⟩ = some b.2 :=
    hkey ▸ Table.find?_of_mem h.nodup hb
  have hname := h.defines b.2.name
  -- The definitions and the open maps agree, so that an entry has codecs.
  rw [hfound, Option.map_some] at hname
  cases hcodecs : codecsOf maps b.2.name with
  | none => simp [hcodecs] at hname
  | some codecs =>
    rw [hcodecs, Option.map_some, Option.some.injEq] at hname
    rw [hname]
    rfl

/-- One more map and its definition. -/
theorem persist (h : c.Restores maps) {name : String} (hnew : maps.contains name = false)
    (id : ObjectId) (keyCodec valueCodec : Codec) :
    ∃ c', (Catalog.persist (.ofMap id name ⟨keyCodec.name, valueCodec.name⟩)).runOn c =
        (.ok (), c') ∧
      c'.Restores (maps.insert name (VersionMap.empty name keyCodec valueCodec)) := by
  obtain ⟨c', hrun, hready, hcommitted⟩ :=
    h.ready.persist (.ofMap id name ⟨keyCodec.name, valueCodec.name⟩)
  have hentry : c'.store.committed = c.store.committed.insert ⟨.map, name⟩
      (.ofMap id name ⟨keyCodec.name, valueCodec.name⟩) := hcommitted
  -- A map that is not open has no definition, hence the new entry replaces none.
  have habsent : c.store.committed.get? ⟨.map, name⟩ = none := by
    rw [← Option.isNone_iff_eq_none, ← Option.not_isSome, ← Table.contains,
      h.defines.contains_eq, hnew]
    rfl
  refine ⟨c', hrun, hready, ?_, ?_⟩
  · rw [hentry]
    exact Table.nodup_keys_insert h.nodup habsent _
  · rw [hentry]
    exact h.defines.insert id name keyCodec valueCodec

/-- One map and its definition less. -/
theorem forget (h : c.Restores maps) (name : String) :
    ∃ c', (Catalog.forget ⟨.map, name⟩).runOn c = (.ok (), c') ∧
      c'.Restores (maps.erase name) := by
  obtain ⟨c', hrun, hready, hcommitted⟩ := h.ready.forget ⟨.map, name⟩
  refine ⟨c', hrun, hready, ?_, ?_⟩
  · rw [hcommitted]
    exact Table.nodup_keys_erase h.nodup _
  · rw [hcommitted]
    exact h.defines.erase name

end Catalog.Restores

/-! ## Creating and dropping maps -/

namespace Engine

variable {e : Engine} {name : String}

theorem runOn_createMap_of_contains (h : e.maps.contains name = true)
    (keyCodec valueCodec : Codec) :
    (createMap name keyCodec valueCodec).runOn e = (.error (.mapExists name), e) := by
  rw [createMap, runOn_bind, runOn_get]
  simp [h]

/-- A map is created together with its definition. -/
theorem runOn_createMap (h : e.catalog.Restores e.maps) (hnew : e.maps.contains name = false)
    (keyCodec valueCodec : Codec) :
    let maps := e.maps.insert name (VersionMap.empty name keyCodec valueCodec)
    ∃ catalog, catalog.Restores maps ∧ (createMap name keyCodec valueCodec).runOn e =
      (.ok (), { e with catalog, maps, nextMapId := ⟨e.nextMapId.val + 1⟩ }) := by
  obtain ⟨catalog, hpersist, hrestores⟩ := h.persist hnew e.nextMapId keyCodec valueCodec
  refine ⟨catalog, hrestores, ?_⟩
  rw [createMap, runOn_bind, runOn_get]
  simp [hnew, onCatalog, runOn_bind, hpersist]

theorem runOn_dropMap_of_not_contains (h : e.maps.contains name = false) :
    (dropMap name).runOn e = (.ok false, e) := by
  rw [dropMap, runOn_bind, runOn_get]
  simp [h]

/-- A map is dropped together with its definition. -/
theorem runOn_dropMap (h : e.catalog.Restores e.maps) (hopen : e.maps.contains name = true) :
    let maps := e.maps.erase name
    ∃ catalog, catalog.Restores maps ∧ (dropMap name).runOn e =
      (.ok true, { e with catalog, maps, dirty := e.dirty.erase name }) := by
  obtain ⟨catalog, hforget, hrestores⟩ := h.forget name
  have hentry : (e.catalog.entry? ⟨.map, name⟩).isSome = true := by
    rw [h.ready.entry?_eq]
    exact (h.defines.contains_eq name).trans hopen
  refine ⟨catalog, hrestores, ?_⟩
  rw [dropMap, runOn_bind, runOn_get]
  simp [hopen, hentry, onCatalog, runOn_bind, hforget, Except.map]

/-! ## Opening -/

theorem resolveCodec_eq_ok {codec : Codec} {text : String} (h : Codec.ofName? text = some codec) :
    resolveCodec text = .ok codec := by
  rw [resolveCodec, h]

theorem restoreMap_eq_ok {e' : Engine} {entry : CatalogEntry} {d : MapDefinition}
    (h : restoreMap e entry d = .ok e') : ∃ keyCodec valueCodec,
      Codec.ofName? d.keyCodec = some keyCodec ∧ Codec.ofName? d.valueCodec = some valueCodec := by
  unfold restoreMap resolveCodec at h
  cases hkey : Codec.ofName? d.keyCodec with
  | none => simp [hkey, bind, Except.bind] at h
  | some keyCodec =>
    cases hvalue : Codec.ofName? d.valueCodec with
    | none => simp [hkey, hvalue, bind, Except.bind] at h
    | some valueCodec => exact ⟨keyCodec, valueCodec, rfl, rfl⟩

/-- A catalog over which an engine was opened names codecs that are known. -/
theorem isSome_codecs?_of_restoreMaps {entries : List CatalogEntry} {e' : Engine}
    (h : restoreMaps e entries = .ok e') {entry : CatalogEntry} (hentry : entry ∈ entries)
    (hkind : entry.kind = .map) : entry.codecs?.isSome = true := by
  -- The engine varies, since each map is taken in by the engine that has those before it.
  induction entries generalizing e with
  | nil => simp at hentry
  | cons first rest ih =>
    rw [restoreMaps] at h
    cases hobject : first.object with
    | sequence d =>
      simp only [hobject] at h
      -- A sequence is passed over.
      rcases List.mem_cons.mp hentry with rfl | hrest
      · simp [CatalogEntry.kind, hobject, CatalogObject.kind] at hkind
      · exact ih h hrest
    | map d =>
      simp only [hobject] at h
      cases hfirst : restoreMap e first d with
      -- The restoring has succeeded, so that each of its steps has.
      | error err => simp [hfirst] at h
      | ok e₁ =>
        simp only [hfirst] at h
        rcases List.mem_cons.mp hentry with rfl | hrest
        · -- The codecs of this entry were resolved.
          obtain ⟨keyCodec, valueCodec, hkey, hvalue⟩ := restoreMap_eq_ok hfirst
          simp [CatalogEntry.codecs?, hobject, hkey, hvalue]
        · exact ih h hrest

/-- The map of an entry is taken in without slots. -/
theorem restoreMap_of_codecs {entry : CatalogEntry} {d : MapDefinition} {codecs : Codec × Codec}
    (hobject : entry.object = .map d) (hcodecs : entry.codecs? = some codecs)
    (hnew : e.maps.contains entry.name = false) :
    ∃ nextMapId, restoreMap e entry d = .ok { e with
      maps := e.maps.insert entry.name (VersionMap.empty entry.name codecs.1 codecs.2)
      nextMapId } := by
  simp only [CatalogEntry.codecs?, hobject] at hcodecs
  obtain ⟨keyCodec, hkey, hcodecs⟩ := Option.bind_eq_some_iff.mp hcodecs
  obtain ⟨valueCodec, hvalue, rfl⟩ := Option.map_eq_some_iff.mp hcodecs
  refine ⟨⟨max e.nextMapId.val (idAfter entry.id).val⟩, ?_⟩
  have hname : (VersionMap.empty entry.name keyCodec valueCodec).name = entry.name := rfl
  rw [restoreMap, resolveCodec_eq_ok hkey, resolveCodec_eq_ok hvalue]
  simp [insertMap, hname, hnew, bind, Except.bind]

/-- The maps of entries are taken in one after the other, each of them without slots. -/
theorem restoreMaps_of_codecs {l : List (ObjectKey × CatalogEntry)}
    (hfiled : ∀ b ∈ l, b.2.key = b.1) (hnodup : (l.map Prod.fst).Nodup)
    (hcodecs : ∀ b ∈ l, b.2.kind = .map → b.2.codecs?.isSome = true)
    (hnew : ∀ b ∈ l, b.2.kind = .map → e.maps.contains b.2.name = false)
    (hempty : ∀ p, slotAt e.maps p = none) :
    ∃ maps nextMapId, restoreMaps e (l.map Prod.snd) = .ok { e with maps, nextMapId } ∧
      (∀ name, (codecsOf maps name).map some =
        ((Table.find? ⟨.map, name⟩ l).map CatalogEntry.codecs?).or
          ((codecsOf e.maps name).map some)) ∧
      ∀ p, slotAt maps p = none := by
  -- The engine varies here too; what it has so far adds to what the rest of the entries define.
  induction l generalizing e with
  | nil => exact ⟨e.maps, e.nextMapId, rfl, fun _ => rfl, hempty⟩
  | cons b rest ih =>
    -- Each entry is filed under its own key, and no other one is.
    obtain ⟨key, entry⟩ := b
    obtain rfl : entry.key = key := hfiled _ List.mem_cons_self
    rw [List.map_cons, List.nodup_cons] at hnodup
    have hfiled' := fun b hb => hfiled b (List.mem_cons_of_mem _ hb)
    have hcodecs' := fun b hb => hcodecs b (List.mem_cons_of_mem _ hb)
    have hnew' := fun b hb => hnew b (List.mem_cons_of_mem _ hb)
    -- A sequence opens no map; a map is taken in under its name, with the codecs of its entry.
    cases hobject : entry.object with
    | sequence d =>
      have hkey : ∀ name, Table.find? ⟨.map, name⟩ ((entry.key, entry) :: rest) =
          Table.find? ⟨.map, name⟩ rest := fun name =>
        if_neg (by simp [CatalogEntry.key, CatalogEntry.kind, hobject, CatalogObject.kind])
      simp only [List.map_cons, restoreMaps, hobject, hkey]
      exact ih hfiled' hnodup.2 hcodecs' hnew' hempty
    | map d =>
      have hkind : entry.kind = .map := by simp [CatalogEntry.kind, hobject, CatalogObject.kind]
      have hkey : entry.key = ⟨.map, entry.name⟩ := by rw [CatalogEntry.key, hkind]
      obtain ⟨codecs, hentry⟩ := Option.isSome_iff_exists.mp (hcodecs _ List.mem_cons_self hkind)
      -- The first map can be taken in, since its name is not in use.
      obtain ⟨nextMapId, hfirst⟩ :=
        restoreMap_of_codecs hobject hentry (hnew _ List.mem_cons_self hkind)
      -- The names of the other maps are different, since their keys are.
      have hothers : ∀ b ∈ rest, b.2.kind = .map →
          (e.maps.insert entry.name (VersionMap.empty entry.name codecs.1 codecs.2)).contains
            b.2.name = false := by
        intro b hb hmap
        have hne : b.2.name ≠ entry.name := by
          intro hname
          apply hnodup.1
          have hsame : b.1 = entry.key := by
            rw [← hfiled' b hb, CatalogEntry.key, hmap, hname, hkey]
          show entry.key ∈ rest.map Prod.fst
          rw [← hsame]
          exact List.mem_map_of_mem hb
        rw [Table.contains_insert, hnew' b hb hmap]
        simp [hne]
      -- The map that was taken in is empty, as are the others.
      have hslots : ∀ p, slotAt
          (e.maps.insert entry.name (VersionMap.empty entry.name codecs.1 codecs.2)) p = none := by
        intro p
        have hp := hempty p
        unfold slotAt at hp ⊢
        rw [Table.get?_insert]
        split
        · rfl
        · exact hp
      -- The rest of the entries are taken in by the engine with this map.
      obtain ⟨maps, nextMapId', hrest, hmaps, hnone⟩ :=
        ih (e := { e with
          maps := e.maps.insert entry.name (VersionMap.empty entry.name codecs.1 codecs.2)
          nextMapId }) hfiled' hnodup.2 hcodecs' hothers hslots
      refine ⟨maps, nextMapId', ?_, ?_, hnone⟩
      · simp only [List.map_cons, restoreMaps, hobject, hfirst]
        exact hrest
      · intro name
        rw [hmaps, Table.find?, hkey, codecsOf, Table.get?_insert]
        -- The name is that of the first entry, and of no later one, or it is of the others.
        by_cases hname : name = entry.name
        · have hlast : Table.find? entry.key rest = none := Table.find?_eq_none_iff.mpr hnodup.1
          rw [hkey] at hlast
          simp [hname, hlast, hentry, VersionMap.empty]
        · have hne : (⟨.map, entry.name⟩ : ObjectKey) ≠ ⟨.map, name⟩ := by
            simpa using Ne.symm hname
          rw [if_neg hname, if_neg hne]
          rfl

/-- An engine can be opened over a catalog that names known codecs. Its maps are those that the
catalog defines, and they are empty. -/
theorem openWith_of_codecs {settings : Settings} {catalog : Catalog}
    (hsettings : settings.validate = .ok ()) (hready : catalog.IsReady)
    (hnodup : catalog.store.committed.keys.Nodup)
    (hcodecs : ∀ b ∈ catalog.store.committed.toList, b.2.kind = .map → b.2.codecs?.isSome = true)
    (log : Option RedoLog) (metrics : Option Metrics) :
    ∃ maps nextMapId, openWith settings catalog log metrics =
        .ok { bare settings catalog log metrics with maps, nextMapId } ∧
      catalog.Restores maps ∧ ∀ p, slotAt maps p = none := by
  obtain ⟨maps, nextMapId, hrun, hmaps, hnone⟩ :=
    restoreMaps_of_codecs (e := bare settings catalog log metrics) hready.filed hnodup hcodecs
      (fun _ _ _ => rfl) fun _ => rfl
  refine ⟨maps, nextMapId, ?_, ⟨hready, hnodup, fun name => ?_⟩, hnone⟩
  · rw [openWith, hsettings]
    exact hrun
  · rw [hmaps]
    exact Option.or_none.symm

/-- The maps of an engine that was opened over a catalog are those that the catalog defines, and
they are empty. -/
theorem defines_of_openWith {settings : Settings} {catalog : Catalog} {log : Option RedoLog}
    {metrics : Option Metrics} (hfiled : Filed catalog.store.committed)
    (hnodup : catalog.store.committed.keys.Nodup)
    (h : openWith settings catalog log metrics = .ok e) :
    settings.validate = .ok () ∧ ∃ maps nextMapId,
      e = { bare settings catalog log metrics with maps, nextMapId } ∧
      Defines catalog.store.committed maps ∧ ∀ p, slotAt maps p = none := by
  -- Opening has succeeded, so that the settings are valid and all maps were restored.
  have hsettings : settings.validate = .ok () := by
    cases hv : settings.validate with
    | ok u => rfl
    | error err => simp [openWith, hv, bind, Except.bind] at h
  have hrestored : restoreMaps (bare settings catalog log metrics) catalog.entries = .ok e := by
    rwa [openWith, hsettings] at h
  -- All codecs of the catalog are known, or the restoring would have failed.
  have hcodecs : ∀ b ∈ catalog.store.committed.toList, b.2.kind = .map →
      b.2.codecs?.isSome = true := fun b hb hkind =>
    isSome_codecs?_of_restoreMaps hrestored (List.mem_map_of_mem hb) hkind
  obtain ⟨maps, nextMapId, hrun, hmaps, hnone⟩ :=
    restoreMaps_of_codecs (e := bare settings catalog log metrics) hfiled hnodup hcodecs
      (fun _ _ _ => rfl) fun _ => rfl
  refine ⟨hsettings, maps, nextMapId, ?_, fun name => ?_, hnone⟩
  · exact Except.ok.inj (hrestored.symm.trans hrun)
  · rw [hmaps]
    exact Option.or_none.symm

/-- An engine that was opened over a catalog can be opened over it again. -/
theorem eq_of_openWith {settings : Settings} {catalog : Catalog} {log : Option RedoLog}
    {metrics : Option Metrics} (hready : catalog.IsReady)
    (hnodup : catalog.store.committed.keys.Nodup)
    (h : openWith settings catalog log metrics = .ok e) :
    settings.validate = .ok () ∧ ∃ maps nextMapId,
      e = { bare settings catalog log metrics with maps, nextMapId } ∧
      catalog.Restores maps ∧ ∀ p, slotAt maps p = none := by
  obtain ⟨hsettings, maps, nextMapId, he, hdefines, hnone⟩ :=
    defines_of_openWith hready.filed hnodup h
  exact ⟨hsettings, maps, nextMapId, he, ⟨hready, hnodup, hdefines⟩, hnone⟩

end Engine

end TxnStore
