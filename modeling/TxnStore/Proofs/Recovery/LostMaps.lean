import TxnStore.Proofs.Catalog.Faults
import TxnStore.Proofs.Catalog.Order
import TxnStore.Proofs.Recovery.MapDefinitions
import TxnStore.Proofs.Transactions.Reachable

/-!
# Maps and a catalog that fails

A map that could not be created leaves nothing behind, and so the catalog has entries for exactly
those maps that were created and, as far as this was acknowledged, not dropped. A map that could not
be dropped is lost: its entry stays, but the map is closed and its rows are gone.
-/

namespace TxnStore

open TxnStore.Action

/-! ## Single requests -/

namespace Engine

variable {e : Engine}

/-- The engine with its catalog set to fail at given calls. -/
def withCatalogFaults (e : Engine) (faults : CatalogFaults) : Engine :=
  { e with catalog := e.catalog.withFaults faults }

/-- Creating a map is refused and uses up at most a number, or there is one more map with its
entry. -/
theorem createMap_outcomes (hidle : e.catalog.IsIdle) (name : String)
    (keyCodec valueCodec : Codec) :
    ∃ catalog nextMapId, catalog.IsIdle ∧
      ((∃ err, (createMap name keyCodec valueCodec).runOn e =
            (.error err, { e with catalog, nextMapId }) ∧
          catalog.store.committed = e.catalog.store.committed) ∨
        e.maps.contains name = false ∧
          (createMap name keyCodec valueCodec).runOn e =
            (.ok (), { e with
              catalog, nextMapId
              maps := e.maps.insert name (VersionMap.empty name keyCodec valueCodec) }) ∧
          catalog.store.committed = e.catalog.store.committed.insert ⟨.map, name⟩
            (.ofMap e.nextMapId name ⟨keyCodec.name, valueCodec.name⟩)) := by
  cases hopen : e.maps.contains name with
  | true =>
    -- The name is taken, and nothing is tried.
    rw [runOn_createMap_of_contains hopen]
    exact ⟨e.catalog, e.nextMapId, hidle, .inl ⟨_, rfl, rfl⟩⟩
  | false =>
    obtain ⟨catalog, hidle', hcases⟩ := hidle.persist_cases
      (.ofMap e.nextMapId name ⟨keyCodec.name, valueCodec.name⟩)
    refine ⟨catalog, ⟨e.nextMapId.val + 1⟩, hidle', ?_⟩
    rw [createMap, runOn_bind, runOn_get]
    simp only [hopen, Bool.false_eq_true, if_false, runOn_bind, runOn_set, onCatalog, runOn_onPart]
    -- The catalog stores the definition or refuses it; the number is gone either way.
    rcases hcases with ⟨hrun, hcommitted⟩ | ⟨err, hrun, hcommitted⟩
    · rw [hrun]
      exact .inr ⟨trivial, rfl, hcommitted⟩
    · rw [hrun]
      exact .inl ⟨err, rfl, hcommitted⟩

/-- Dropping a map finds none, or takes the map and its entry away. If the entry cannot be removed,
the map is gone nevertheless. -/
theorem dropMap_outcomes (hidle : e.catalog.IsIdle) (name : String) :
    (e.maps.contains name = false ∧ (dropMap name).runOn e = (.ok false, e)) ∨
      ∃ catalog, catalog.IsIdle ∧
        ((∃ err, (dropMap name).runOn e =
              (.error err, { e with catalog, maps := e.maps.erase name }) ∧
            e.catalog.store.committed.contains ⟨.map, name⟩ = true ∧
            catalog.store.committed = e.catalog.store.committed) ∨
          (dropMap name).runOn e =
              (.ok true, { e with
                catalog, maps := e.maps.erase name, dirty := e.dirty.erase name }) ∧
            catalog.store.committed = e.catalog.store.committed.erase ⟨.map, name⟩) := by
  cases hopen : e.maps.contains name with
  | false => exact .inl ⟨rfl, runOn_dropMap_of_not_contains hopen⟩
  | true =>
    right
    have hentry : (e.catalog.entry? ⟨.map, name⟩).isSome =
        e.catalog.store.committed.contains ⟨.map, name⟩ :=
      congrArg Option.isSome (hidle.entry?_eq _)
    rw [dropMap, runOn_bind, runOn_get]
    simp only [hopen, Bool.not_true, Bool.false_eq_true, if_false, runOn_bind, runOn_set, hentry]
    cases hfound : e.catalog.store.committed.contains ⟨.map, name⟩ with
    | false =>
      -- A map that was only registered has no entry to be removed.
      exact ⟨e.catalog, hidle, .inr ⟨rfl, (Table.erase_of_not_contains hfound).symm⟩⟩
    | true =>
      obtain ⟨catalog, hidle', hcases⟩ := hidle.forget_cases ⟨.map, name⟩
      refine ⟨catalog, hidle', ?_⟩
      simp only [if_true, onCatalog, runOn_bind, runOn_onPart]
      -- The catalog forgets the entry or fails to; the map is gone either way.
      rcases hcases with ⟨hrun, hcommitted⟩ | ⟨err, hrun, hcommitted⟩
      · rw [hrun]
        exact .inr ⟨rfl, hcommitted⟩
      · rw [hrun]
        exact .inl ⟨err, rfl, trivial, hcommitted⟩

/-- A map is taken in if its name is free. -/
theorem registerMap_outcomes (e : Engine) (m : VersionMap) :
    ((registerMap m).runOn e).2 = e ∨
      e.maps.contains m.name = false ∧
        ((registerMap m).runOn e).2 = { e with maps := e.maps.insert m.name m } := by
  rw [registerMap, runOn_bind, runOn_get]
  simp only [runOn_bind, runOn_ofExcept, insertMap]
  cases e.maps.contains m.name with
  | true => exact .inl rfl
  | false => exact .inr ⟨rfl, rfl⟩

end Engine

/-! ## The ledger of maps -/

/-- What the answers to requests tell of the maps. -/
structure MapLedger where
  /-- The codecs of the maps that were created and not dropped since, as far as the drop was
  acknowledged. -/
  made : String → Option (Codec × Codec)
  /-- The maps among them that were to be dropped, which failed. -/
  lost : String → Bool

namespace MapLedger

def afterCreate (b : MapLedger) (name : String) (keyCodec valueCodec : Codec) :
    Except StoreError Unit → MapLedger
  | .ok _ =>
    { made := fun n => if n = name then some (keyCodec, valueCodec) else b.made n
      lost := fun n => n ≠ name && b.lost n }
  | .error _ => b

def afterDrop (b : MapLedger) (name : String) : Except StoreError Bool → MapLedger
  | .ok true =>
    { made := fun n => if n = name then none else b.made n
      lost := fun n => n ≠ name && b.lost n }
  | .ok false => b
  | .error _ => { b with lost := fun n => n = name || b.lost n }

def after (b : MapLedger) (e : Engine) : EngineRequest → MapLedger
  | .call _ => b
  | .createMap name keyCodec valueCodec =>
    b.afterCreate name keyCodec valueCodec ((Engine.createMap name keyCodec valueCodec).runOn e).1
  | .dropMap name => b.afterDrop name ((Engine.dropMap name).runOn e).1

end MapLedger

/-- An engine that was opened over a catalog and is in use since, with the ledger of its maps. -/
inductive Engine.HasLedger : Engine → MapLedger → Prop where
  /-- The maps with which an engine is opened were made before. -/
  | opened {settings : Settings} {catalog : Catalog} {log : Option RedoLog}
      {metrics : Option Metrics} {e : Engine} (hidle : catalog.IsIdle)
      (hsorted : catalog.store.committed.IsSorted)
      (hopen : Engine.openWith settings catalog log metrics = .ok e) :
      HasLedger e ⟨codecsOf e.maps, fun _ => false⟩
  /-- The catalog may fail at any request. -/
  | after {e : Engine} {b : MapLedger} (h : HasLedger e b) (faults : CatalogFaults)
      (q : EngineRequest) :
      HasLedger ((e.withCatalogFaults faults).after q) (b.after (e.withCatalogFaults faults) q)
  /-- A map may be taken in without a word to the catalog. -/
  | registered {e : Engine} {b : MapLedger} (h : HasLedger e b) (m : VersionMap) :
      HasLedger ((Engine.registerMap m).runOn e).2 b
  | recovered {e : Engine} {b : MapLedger} (h : HasLedger e b) :
      HasLedger (Engine.recover.runOn e).2 b
  /-- An engine may be opened again over the catalog that another one leaves. -/
  | reopened {settings : Settings} {log : Option RedoLog} {metrics : Option Metrics}
      {e e' : Engine} {b : MapLedger} (h : HasLedger e b)
      (hopen : Engine.openWith settings e.catalog log metrics = .ok e') :
      HasLedger e' ⟨b.made, fun _ => false⟩
  /-- The log, the estimates and the counts may change from elsewhere, and also the catalog if its
  entries for maps stay as they are. -/
  | elsewhere {e : Engine} {b : MapLedger} (h : HasLedger e b) {catalog : Catalog}
      (hidle : catalog.IsIdle) (hsorted : catalog.store.committed.IsSorted)
      (hsame : ∀ name, catalog.store.committed.get? ⟨.map, name⟩ =
        e.catalog.store.committed.get? ⟨.map, name⟩)
      (log : Option RedoLog) (dirty : Table String UInt64) (metrics : Option Metrics) :
      HasLedger { e with catalog, log, dirty, metrics } b

/-- An engine and a ledger after requests one after the other, during each of which certain calls of
the catalog fail. -/
def Engine.runLedger (e : Engine) (b : MapLedger) :
    List (CatalogFaults × EngineRequest) → Engine × MapLedger
  | [] => (e, b)
  | (faults, q) :: rest =>
    runLedger ((e.withCatalogFaults faults).after q) (b.after (e.withCatalogFaults faults) q) rest

theorem Engine.HasLedger.run {e : Engine} {b : MapLedger} (h : e.HasLedger b)
    (requests : List (CatalogFaults × EngineRequest)) :
    (e.runLedger b requests).1.HasLedger (e.runLedger b requests).2 := by
  induction requests generalizing e b with
  | nil => exact h
  | cons q rest ih => exact ih (h.after q.1 q.2)

/-! ## What requests keep -/

/-- The catalog has an entry for each map that was made, with its codecs, and no other entry for a
map; and such a map is open unless it is lost. -/
structure MapLedger.Agrees (b : MapLedger) (e : Engine) : Prop where
  idle : e.catalog.IsIdle
  sorted : e.catalog.store.committed.IsSorted
  entries : ∀ name, (e.catalog.store.committed.get? ⟨.map, name⟩).map CatalogEntry.codecs? =
    (b.made name).map some
  opened : ∀ name codecs, b.made name = some codecs → b.lost name = false →
    codecsOf e.maps name = some codecs
  lost : ∀ name, b.lost name = true → (b.made name).isSome = true

namespace MapLedger.Agrees

variable {b : MapLedger} {e e' : Engine}

/-- Other things may change. -/
theorem of_same (h : b.Agrees e) (hcatalog : e'.catalog = e.catalog)
    (hcodecs : ∀ name, codecsOf e'.maps name = codecsOf e.maps name) : b.Agrees e' where
  idle := hcatalog ▸ h.idle
  sorted := hcatalog ▸ h.sorted
  entries := hcatalog ▸ h.entries
  opened name codecs hmade hlost := (hcodecs name).trans (h.opened name codecs hmade hlost)
  lost := h.lost

theorem withCatalogFaults (h : b.Agrees e) (faults : CatalogFaults) :
    b.Agrees (e.withCatalogFaults faults) :=
  ⟨h.idle.withFaults faults, h.sorted, h.entries, h.opened, h.lost⟩

theorem createMap (h : b.Agrees e) (name : String) (keyCodec valueCodec : Codec) :
    let x := (Engine.createMap name keyCodec valueCodec).runOn e
    (b.afterCreate name keyCodec valueCodec x.1).Agrees x.2 := by
  obtain ⟨catalog, nextMapId, hidle, hcases⟩ :=
    Engine.createMap_outcomes h.idle name keyCodec valueCodec
  rcases hcases with ⟨err, hrun, hcommitted⟩ | ⟨hnew, hrun, hcommitted⟩
  · rw [hrun]
    -- The catalog has kept its entries, and no map was opened.
    exact ⟨hidle, hcommitted ▸ h.sorted, hcommitted ▸ h.entries, h.opened, h.lost⟩
  · rw [hrun]
    refine ⟨hidle, ?_, fun n => ?_, fun n codecs hmade hlost => ?_, fun n hlost => ?_⟩
    · show catalog.store.committed.IsSorted
      rw [hcommitted]
      exact h.sorted.insert _ _
    · -- The entry that was stored is the one that the ledger notes.
      show (catalog.store.committed.get? ⟨.map, n⟩).map CatalogEntry.codecs? =
        (if n = name then some (keyCodec, valueCodec) else b.made n).map some
      rw [hcommitted, Table.get?_insert]
      by_cases hn : n = name
      · simp [hn, CatalogEntry.codecs?, CatalogEntry.ofMap]
      · have hkey : (⟨.map, n⟩ : ObjectKey) ≠ ⟨.map, name⟩ := by simpa using hn
        rw [if_neg hkey, if_neg hn]
        exact h.entries n
    · -- The new map has its codecs, the others have what they had.
      have hmade : (if n = name then some (keyCodec, valueCodec) else b.made n) = some codecs := hmade
      have hlost : (decide (n ≠ name) && b.lost n) = false := hlost
      show codecsOf (e.maps.insert name (VersionMap.empty name keyCodec valueCodec)) n = some codecs
      rw [codecsOf, Table.get?_insert]
      by_cases hn : n = name
      · rw [if_pos hn] at hmade ⊢
        exact hmade
      · rw [if_neg hn] at hmade ⊢
        exact h.opened n codecs hmade (by simpa [hn] using hlost)
    · -- A map that is made again is no longer lost.
      obtain ⟨hn, hlost⟩ : n ≠ name ∧ b.lost n = true := by
        simpa [MapLedger.afterCreate] using hlost
      show (if n = name then some (keyCodec, valueCodec) else b.made n).isSome = true
      rw [if_neg hn]
      exact h.lost n hlost

theorem dropMap (h : b.Agrees e) (name : String) :
    let x := (Engine.dropMap name).runOn e
    (b.afterDrop name x.1).Agrees x.2 := by
  -- Other maps than the one that is dropped stay as they are.
  have hothers : ∀ n codecs, n ≠ name → codecsOf e.maps n = some codecs →
      codecsOf (e.maps.erase name) n = some codecs := by
    intro n codecs hn hcodecs
    rwa [codecsOf, Table.get?_erase_ne _ hn]
  rcases Engine.dropMap_outcomes h.idle name with
    ⟨-, hrun⟩ | ⟨catalog, hidle, ⟨err, hrun, hentry, hcommitted⟩ | ⟨hrun, hcommitted⟩⟩
  · rw [hrun]
    -- There was no such map.
    exact h
  · rw [hrun]
    refine ⟨hidle, hcommitted ▸ h.sorted, hcommitted ▸ h.entries, fun n codecs hmade hlost => ?_,
      fun n hlost => ?_⟩
    · -- The drop has failed, yet the map is closed: the ledger notes it as lost.
      obtain ⟨hn, hlost⟩ : n ≠ name ∧ b.lost n = false := by
        simpa [MapLedger.afterDrop] using hlost
      exact hothers n codecs hn (h.opened n codecs hmade hlost)
    · have hlost : n = name ∨ b.lost n = true := by simpa [MapLedger.afterDrop] using hlost
      show (b.made n).isSome = true
      rcases hlost with rfl | hlost
      · -- There was an entry that could not be removed.
        have hmade := congrArg Option.isSome (h.entries n)
        rw [Option.isSome_map, Option.isSome_map] at hmade
        exact hmade.symm.trans hentry
      · exact h.lost n hlost
  · rw [hrun]
    refine ⟨hidle, ?_, fun n => ?_, fun n codecs hmade hlost => ?_, fun n hlost => ?_⟩
    · show catalog.store.committed.IsSorted
      rw [hcommitted]
      exact h.sorted.erase _
    · -- The entry is gone, and with it the map is no longer made.
      show (catalog.store.committed.get? ⟨.map, n⟩).map CatalogEntry.codecs? =
        (if n = name then none else b.made n).map some
      rw [hcommitted, Table.get?_erase]
      by_cases hn : n = name
      · simp [hn]
      · have hkey : (⟨.map, n⟩ : ObjectKey) ≠ ⟨.map, name⟩ := by simpa using hn
        rw [if_neg hkey, if_neg hn]
        exact h.entries n
    · have hmade : (if n = name then none else b.made n) = some codecs := hmade
      have hlost : (decide (n ≠ name) && b.lost n) = false := hlost
      by_cases hn : n = name
      · simp [hn] at hmade
      · rw [if_neg hn] at hmade
        exact hothers n codecs hn (h.opened n codecs hmade (by simpa [hn] using hlost))
    · -- A map that stays lost is another one.
      obtain ⟨hn, hlost⟩ : n ≠ name ∧ b.lost n = true := by
        simpa [MapLedger.afterDrop] using hlost
      show (if n = name then none else b.made n).isSome = true
      rw [if_neg hn]
      exact h.lost n hlost

theorem after (h : b.Agrees e) (q : EngineRequest) : (b.after e q).Agrees (e.after q) := by
  cases q with
  | call c => exact h.of_same (c.effect e).catalog (c.effect e).codecs
  | createMap name keyCodec valueCodec => exact h.createMap name keyCodec valueCodec
  | dropMap name => exact h.dropMap name

/-- A map that is taken in has a name that is free, hence not that of a map that was made, unless
this one is lost. -/
theorem registerMap (h : b.Agrees e) (m : VersionMap) :
    b.Agrees ((Engine.registerMap m).runOn e).2 := by
  rcases e.registerMap_outcomes m with hsame | ⟨hfree, hinserted⟩
  · -- A map that is registered under a name in use is refused.
    rw [hsame]
    exact h
  · rw [hinserted]
    refine ⟨h.idle, h.sorted, h.entries, fun name codecs hmade hlost => ?_, h.lost⟩
    have hcodecs := h.opened name codecs hmade hlost
    -- The name was free, so that it is not that of a map which has its codecs.
    have hne : name ≠ m.name := by
      rintro rfl
      rw [← isSome_codecsOf, hcodecs] at hfree
      cases hfree
    show codecsOf (e.maps.insert m.name m) name = some codecs
    rwa [codecsOf, Table.get?_insert_ne _ hne]

/-- A replay changes the rows of maps. -/
theorem recover (h : b.Agrees e) : b.Agrees (Engine.recover.runOn e).2 := by
  apply Engine.recover_keeps (P := b.Agrees) _ h
  intro e r h
  rcases Engine.replayRecord_cases e r with
    ⟨err, hrun⟩ | hrun | ⟨m, key, payload, hm, -, hrun⟩
  · -- What cannot be read or is not open changes nothing.
    rw [hrun]
    exact h
  · rw [hrun]
    exact h
  · rw [hrun]
    -- Replaying writes slots and leaves the codecs.
    have hcodecs : (Engine.replayInto m key payload).keyCodec = m.keyCodec ∧
        (Engine.replayInto m key payload).valueCodec = m.valueCodec := by
      cases payload <;> exact ⟨rfl, rfl⟩
    exact h.of_same rfl (codecsOf_insert hm hcodecs.1 hcodecs.2)

end MapLedger.Agrees

namespace Engine.HasLedger

variable {e : Engine} {b : MapLedger}

theorem agrees (h : e.HasLedger b) : b.Agrees e := by
  induction h with
  | @opened _ catalog _ _ e hidle hsorted hopen =>
    -- After opening, every definition of the catalog has its map, and none is lost.
    obtain ⟨-, maps, nextMapId, rfl, hdefines, -⟩ :=
      defines_of_openWith hidle.filed hsorted.nodup hopen
    exact ⟨hidle, hsorted, hdefines, fun _ _ hmade _ => hmade, fun _ hlost => by cases hlost⟩
  | after _ faults q ih => exact (ih.withCatalogFaults faults).after q
  | registered _ m ih => exact ih.registerMap m
  | recovered _ ih => exact ih.recover
  | @reopened _ _ _ e e' b _ hopen ih =>
    obtain ⟨-, maps, nextMapId, rfl, hdefines, -⟩ :=
      defines_of_openWith ih.idle.filed ih.sorted.nodup hopen
    -- Opening again brings back the lost maps along with the others.
    refine ⟨ih.idle, ih.sorted, ih.entries, fun name codecs hmade _ => ?_,
      fun _ hlost => by cases hlost⟩
    have hopened := (hdefines name).symm.trans (ih.entries name)
    rw [hmade] at hopened
    obtain ⟨c, hc, hsame⟩ := Option.map_eq_some_iff.mp hopened
    exact hc.trans hsame
  | elsewhere _ hidle hsorted hsame log dirty metrics ih =>
    exact ⟨hidle, hsorted, fun name => hsame name ▸ ih.entries name, ih.opened, ih.lost⟩

/-! ## The main statement -/

/-- Take an engine that was opened over a catalog and is in use since, while the catalog may have
failed at any time. The catalog has an entry for each map that was created and whose drop was not
acknowledged, with its codecs, and no other entry for a map; such a map is open unless a drop of it
has failed. A map that cannot be created leaves the entries and everything else as they were, but
for a number that may be used up. A map that cannot be dropped leaves the entries and everything
else as they were, but for the map itself, which is closed and gone. -/
theorem map_requests (h : e.HasLedger b) :
    (∀ name, (e.catalog.entry? ⟨.map, name⟩).map CatalogEntry.codecs? =
      (b.made name).map some) ∧
    (∀ name codecs, b.made name = some codecs → b.lost name = false →
      codecsOf e.maps name = some codecs) ∧
    ∀ faults,
      (∀ name keyCodec valueCodec err e',
        (createMap name keyCodec valueCodec).runOn (e.withCatalogFaults faults) =
            (.error err, e') →
          ∃ catalog nextMapId, e' = { e with catalog, nextMapId } ∧
            catalog.entries = e.catalog.entries) ∧
      ∀ name err e',
        (dropMap name).runOn (e.withCatalogFaults faults) = (.error err, e') →
          ∃ catalog, e' = { e with catalog, maps := e.maps.erase name } ∧
            catalog.entries = e.catalog.entries := by
  have hagrees := h.agrees
  refine ⟨fun name => ?_, hagrees.opened, fun faults => ⟨?_, ?_⟩⟩
  · rw [hagrees.idle.entry?_eq]
    exact hagrees.entries name
  · intro name keyCodec valueCodec err e' hrun
    obtain ⟨catalog, nextMapId, -, hcases⟩ := createMap_outcomes
      (hagrees.withCatalogFaults faults).idle name keyCodec valueCodec
    -- The creation has failed, so that the catalog is as it was.
    rcases hcases with ⟨err', hfails, hcommitted⟩ | ⟨-, hdone, -⟩
    · rw [hrun] at hfails
      cases hfails
      exact ⟨catalog, nextMapId, rfl, congrArg Table.values hcommitted⟩
    · rw [hrun] at hdone
      cases hdone
  · intro name err e' hrun
    -- A drop that fails has closed the map, and the catalog has kept the entry.
    rcases dropMap_outcomes (hagrees.withCatalogFaults faults).idle name with
      ⟨-, hnone⟩ | ⟨catalog, -, ⟨err', hfails, -, hcommitted⟩ | ⟨hdone, -⟩⟩
    · rw [hrun] at hnone
      cases hnone
    · rw [hrun] at hfails
      cases hfails
      exact ⟨catalog, rfl, congrArg Table.values hcommitted⟩
    · rw [hrun] at hdone
      cases hdone

end Engine.HasLedger

namespace Engine

/-- A map with one row, in an engine in memory. -/
def oneRow : Engine × MapLedger :=
  inMemory.runLedger ⟨codecsOf inMemory.maps, fun _ => false⟩
    [(.none, .createMap "m" .int64 .text), (.none, .call (.begin none)),
      (.none, .call (.put ⟨1⟩ ⟨"m", .int 1⟩ (.text "a"))), (.none, .call (.commit ⟨1⟩))]

theorem hasLedger_oneRow : oneRow.1.HasLedger oneRow.2 := by
  have hopen : openWith .basic .inMemory none none = .ok inMemory := rfl
  have hidle : Catalog.inMemory.IsIdle := Catalog.isReady_inMemory.idle
  exact (HasLedger.opened hidle Table.isSorted_empty hopen).run _

/-- The map cannot be dropped, then another one cannot be created. -/
theorem map_requests_of_lost_map :
    let s := oneRow.1.runLedger oneRow.2
      [(.none, .createMap "n" .text .tagged), (.atCommit, .dropMap "m")]
    let x := (createMap "k" .int64 .int64).runOn (s.1.withCatalogFaults .atCommit)
    (s.1.catalog.entry? ⟨.map, "m"⟩).map CatalogEntry.codecs? = some (some (.int64, .text)) ∧
      codecsOf s.1.maps "n" = some (.text, .tagged) ∧ s.1.maps.contains "m" = false ∧
      x.1 = .error (.device .diskFull) ∧ x.2.maps = s.1.maps ∧
      x.2.catalog.entries = s.1.catalog.entries := by
  intro s x
  have hledger : s.1.HasLedger s.2 := hasLedger_oneRow.run _
  obtain ⟨hentries, hopen, hfails⟩ := hledger.map_requests
  -- The ledger follows what was made, and what was lost on the way.
  have hmade : s.2.made "n" = some (.text, .tagged) := by decide +kernel
  have hlost : s.2.lost "n" = false := by decide +kernel
  have hkept : s.2.made "m" = some (.int64, .text) := by decide +kernel
  have hrefused : x.1 = .error (.device .diskFull) := by decide +kernel
  have hrun : x = (.error (.device .diskFull), x.2) := by rw [← hrefused]
  obtain ⟨catalog, nextMapId, hsame, hcatalog⟩ := (hfails .atCommit).1 _ _ _ _ _ hrun
  refine ⟨?_, hopen "n" _ hmade hlost, by decide +kernel, hrefused, by rw [hsame], ?_⟩
  · rw [hentries, hkept]
    rfl
  · rw [hsame]
    exact hcatalog

/-- Its entry cannot be removed, and yet the map is gone with its row. Dropping it once more finds no
map, and the entry stays. -/
theorem dropMap_loses_map :
    let x := (dropMap "m").runOn (oneRow.1.withCatalogFaults .atCommit)
    let y := (dropMap "m").runOn (x.2.withCatalogFaults .none)
    oneRow.1.HasLedger oneRow.2 ∧ x.1 = .error (.device .diskFull) ∧
      slotAt oneRow.1.maps ⟨"m", .int 1⟩ = some (.settled (some (.text "a"))) ∧
      x.2.maps.contains "m" = false ∧ y.1 = .ok false ∧
      (y.2.catalog.entry? ⟨.map, "m"⟩).isSome = true := by
  intro x y
  exact ⟨hasLedger_oneRow, by decide +kernel, by decide +kernel, by decide +kernel,
    by decide +kernel, by decide +kernel⟩

end Engine

end TxnStore
