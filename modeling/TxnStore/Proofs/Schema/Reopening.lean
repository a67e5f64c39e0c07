import TxnStore.Proofs.Schema.Operations

/-!
# Schemas that are opened again

A schema is lost with everything that it knows, and another one is opened on its catalog. The new
one knows the sequences that the old one knew and that were not temporary, with the same attributes.
The numbers that all of them give to objects are drawn from sequences that follow each other, and so
no object gets a number that another one has had.
-/

namespace TxnStore

open TxnStore.Action

/-! ## Binding a list -/

namespace Table

variable {κ α : Type} [DecidableEq κ] [Ord κ]

/-- Of bindings whose keys differ each one is found. -/
theorem get?_ofList {entries : List (κ × α)} (h : (entries.map Prod.fst).Nodup) (k : κ) :
    (ofList entries).get? k = find? k entries := by
  unfold ofList
  -- The induction is on the entries for any table to start from, as each insert changes it.
  suffices hgoOn : ∀ t : Table κ α, (entries.foldl (fun t e => t.insert e.1 e.2) t).get? k =
      (find? k entries).or (t.get? k) by
    rw [hgoOn empty, get?_empty, Option.or_none]
  induction entries with
  | nil => exact fun t => rfl
  | cons e rest ih =>
    intro t
    obtain ⟨hfirst, hrest⟩ := List.nodup_cons.mp h
    rw [List.foldl_cons, ih hrest, get?_insert, find?]
    -- No later entry has the same key, and so the first one is the one that is found.
    by_cases hk : k = e.1
    · have hnone : find? k rest = none := find?_eq_none_iff.mpr (hk ▸ hfirst)
      rw [hnone, if_pos hk, if_pos hk.symm]
      rfl
    · rw [if_neg hk, if_neg (Ne.symm hk)]

theorem mem_of_mem_ofList {entries : List (κ × α)} {b : κ × α} (h : b ∈ (ofList entries).toList) :
    b ∈ entries := by
  unfold ofList at h
  -- What is found was placed by one of the inserts, or it was there at the start.
  suffices hgoOn : ∀ t : Table κ α,
      b ∈ (entries.foldl (fun t e => t.insert e.1 e.2) t).toList → b ∈ t.toList ∨ b ∈ entries from
    (hgoOn empty h).resolve_left List.not_mem_nil
  clear h
  induction entries with
  | nil => exact fun t h => .inl h
  | cons e rest ih =>
    intro t h
    rcases ih (t.insert e.1 e.2) h with hplaced | hrest
    · rcases mem_place hplaced with rfl | hold
      · exact .inr List.mem_cons_self
      · exact .inl hold
    · exact .inr (List.mem_cons_of_mem _ hrest)

end Table

namespace Schema

/-! ## Taking up entries -/

/-- The sequence that is taken up from an entry, under the name of the entry. -/
def takenUp? (e : CatalogEntry) : Option (String × Sequence) :=
  match e.object with
  | .map _ => none
  | .sequence d => some (e.name, Sequence.takenUp d)

/-- All sequences of a catalog are taken up if each of them can be. -/
theorem recoverAll_eq {entries : List CatalogEntry}
    (h : ∀ e ∈ entries, ∀ d, e.object = .sequence d → Sequence.Recoverable d) :
    recoverAll entries = .ok (entries.filterMap takenUp?) := by
  induction entries with
  | nil => rfl
  | cons e rest ih =>
    have hrest := ih fun e' he' => h e' (List.mem_cons_of_mem _ he')
    unfold recoverAll
    -- Maps are passed over, and every sequence is taken up.
    cases hobject : e.object with
    | map d =>
      have hnone : takenUp? e = none := by rw [takenUp?, hobject]
      rw [List.filterMap_cons_none hnone]
      exact hrest
    | sequence d =>
      have hsome : takenUp? e = some (e.name, Sequence.takenUp d) := by rw [takenUp?, hobject]
      have hrecover := Sequence.recover_of_recoverable (h e List.mem_cons_self d hobject)
      rw [List.filterMap_cons_some hsome, hrest]
      dsimp only
      rw [hrecover]
      rfl

theorem recoverable_of_recoverAll {entries : List CatalogEntry} {found : List (String × Sequence)}
    (h : recoverAll entries = .ok found) :
    ∀ e ∈ entries, ∀ d, e.object = .sequence d → Sequence.Recoverable d := by
  induction entries generalizing found with
  | nil => exact nofun
  | cons e rest ih =>
    -- Each sequence up to the failure was taken up, and here there is none.
    intro e' he' d' hd'
    rw [recoverAll] at h
    cases hobject : e.object with
    | map m =>
      rw [hobject] at h
      rcases List.mem_cons.mp he' with rfl | he'
      · cases hobject.symm.trans hd'
      · exact ih h e' he' d' hd'
    | sequence d =>
      rw [hobject] at h
      dsimp only at h
      cases hrecover : Sequence.recover d with
      | error err =>
        rw [hrecover] at h
        cases h
      | ok s =>
        cases hrest : recoverAll rest with
        | error err =>
          rw [hrecover, hrest] at h
          cases h
        | ok more =>
          rcases List.mem_cons.mp he' with rfl | he'
          · obtain rfl := CatalogObject.sequence.inj (hobject.symm.trans hd')
            exact (Sequence.eq_of_recover hrecover).1
          · exact ih hrest e' he' d' hd'

/-- What is found among entries is what is taken up from each of them. -/
theorem eq_of_recoverAll {entries : List CatalogEntry} {found : List (String × Sequence)}
    (h : recoverAll entries = .ok found) : found = entries.filterMap takenUp? :=
  Except.ok.inj (h.symm.trans (recoverAll_eq (recoverable_of_recoverAll h)))

theorem takenUp?_eq_some_iff {e : CatalogEntry} {name : String} {s : Sequence} :
    takenUp? e = some (name, s) ↔
      e.name = name ∧ ∃ d, e.object = .sequence d ∧ Sequence.takenUp d = s := by
  unfold takenUp?
  cases e.object with
  | map d => simp
  | sequence d => simp

end Schema

/-! ## Entries in their places -/

/-- An entry that is committed is filed under its key. -/
theorem Catalog.IsReady.get?_of_mem {c : Catalog} (h : c.IsReady)
    (hsorted : c.store.committed.IsSorted) {e : CatalogEntry} (he : e ∈ c.entries) :
    c.store.committed.get? e.key = some e := by
  obtain ⟨⟨key, e'⟩, hmem, rfl⟩ := List.mem_map.mp he
  have hkey : e'.key = key := h.filed _ hmem
  rw [hkey]
  exact Table.find?_of_mem hsorted.nodup hmem

theorem Catalog.mem_entries_of_get? {c : Catalog} {key : ObjectKey} {e : CatalogEntry}
    (he : c.store.committed.get? key = some e) : e ∈ c.entries :=
  List.mem_map.mpr ⟨(key, e), Table.mem_of_find? he, rfl⟩

/-- No two entries have the same key. -/
theorem Catalog.IsReady.pairwise_entries {c : Catalog} (h : c.IsReady)
    (hsorted : c.store.committed.IsSorted) : c.entries.Pairwise fun e e' => e.key ≠ e'.key := by
  have hkeys : c.entries.map CatalogEntry.key = c.store.committed.keys := by
    unfold entries CatalogStore.entries Table.values Table.keys
    rw [List.map_map]
    exact List.map_congr_left h.filed
  have hnodup := hsorted.nodup
  rw [← hkeys] at hnodup
  exact List.pairwise_map.mp hnodup

namespace Schema

theorem key_of_sequence {e : CatalogEntry} {d : SequenceDefinition} (h : e.object = .sequence d) :
    e.key = ⟨.sequence, e.name⟩ := by
  rw [CatalogEntry.key, CatalogEntry.kind, h]
  rfl

namespace IsInStep

variable {schema : Schema} {drawn : List Int64}

/-- Each entry of a sequence goes on with the sequence that numbers the objects or with one that is
known by the name of the entry. -/
theorem resumes_of_mem (h : schema.IsInStep drawn) {e : CatalogEntry}
    (he : e ∈ schema.catalog.entries) {d : SequenceDefinition} (hd : e.object = .sequence d) :
    (e.name = objectIdsName ∧ ∃ m largest,
        IsSafe 1 ⟨schema.objectIds, schema.catalog⟩ drawn m ∧
        IsTight 1 ⟨schema.objectIds, schema.catalog⟩ m largest ∧
        d = schema.objectIds.definitionAt m ∧ d.Resumes schema.objectIds m) ∨
      ∃ s, schema.sequences.get? e.name = some s ∧ s.temporary = false ∧ s.name = e.name ∧
        d.Resumes s s.margin := by
  have hfound := h.ready.get?_of_mem h.sorted he
  rw [key_of_sequence hd] at hfound
  -- The entry is that of the sequence of numbers, or of a registered sequence.
  rcases h.entries hfound with hname | ⟨s, hs, htemporary⟩
  · left
    obtain ⟨m, largest, hsafe, htight⟩ := h.numbers
    have hentry := hsafe.stored
    rw [h.ready.entry?_eq] at hentry
    dsimp only at hentry
    rw [h.entryKey_objectIds, ← hname, hfound] at hentry
    have hsame : d = schema.objectIds.definitionAt m := by
      rw [Option.some.inj hentry] at hd
      exact (CatalogObject.sequence.inj hd).symm
    refine ⟨hname, m, largest, hsafe, htight, hsame, ?_⟩
    rw [hsame]
    refine h.regular_objectIds.resumes_definitionAt (Int.le_trans h.regular_objectIds.begun ?_)
    have hahead := hsafe.along_value_le_margin
    rw [htight.committed] at hahead
    rw [hsafe.sound.increment]
    exact hahead
  · right
    -- A registered sequence resumes from the definition that it is filed under.
    have hregistered := h.registered hs
    obtain ⟨d', hstored, hresumes⟩ := (hregistered.kept htemporary).stored
    have hkey : s.entryKey = ⟨.sequence, e.name⟩ :=
      congrArg (ObjectKey.mk .sequence) hregistered.named
    dsimp only at hstored
    rw [h.ready.entry?_eq, hkey, hfound, Option.map_some, hd] at hstored
    obtain rfl := CatalogObject.sequence.inj (Option.some.inj hstored)
    exact ⟨s, hs, htemporary, hregistered.named, hresumes⟩

theorem recoverable_of_mem (h : schema.IsInStep drawn) {e : CatalogEntry}
    (he : e ∈ schema.catalog.entries) {d : SequenceDefinition} (hd : e.object = .sequence d) :
    Sequence.Recoverable d := by
  rcases h.resumes_of_mem he hd with ⟨-, _, _, -, -, -, hresumes⟩ | ⟨_, -, -, -, hresumes⟩
  · exact hresumes.recoverable
  · exact hresumes.recoverable

end IsInStep

/-! ## Opening again -/

/-- The sequences that are taken up from a catalog and known by their names. -/
def takenUpAgain (catalog : Catalog) : Table String Sequence :=
  Table.ofList ((catalog.entries.filterMap takenUp?).filter fun e => e.1 ≠ objectIdsName)

/-- A schema is opened where each sequence can be taken up. The one that numbers the objects is
taken up with them, or it is created. -/
theorem openWithCache_cases {c c' : Catalog} {cache : Int64} {schema : Schema}
    (h : openWithCache cache c = (.ok schema, c')) :
    (∀ e ∈ c.entries, ∀ d, e.object = .sequence d → Sequence.Recoverable d) ∧
      ∃ objectIds, schema = ⟨c', max cache 1, takenUpAgain c, objectIds⟩ ∧
        (c' = c ∧ (objectIdsName, objectIds) ∈ c.entries.filterMap takenUp? ∨
          createObjectIds.runOn c = (.ok objectIds, c')) := by
  rw [openWithCache_eq] at h
  -- The scan over the entries may fail, the sequence of numbers may be found, or it is created.
  split at h
  · cases h
  · next found hfound =>
    refine ⟨recoverable_of_recoverAll hfound, ?_⟩
    obtain rfl := eq_of_recoverAll hfound
    dsimp only at h
    split at h
    · next name s hlast =>
      cases h
      obtain ⟨hmem, hname⟩ := List.mem_filter.mp (List.mem_of_getLast? hlast)
      obtain rfl : name = objectIdsName := of_decide_eq_true hname
      exact ⟨s, rfl, .inl ⟨rfl, hmem⟩⟩
    · split at h
      · next s c₁ hrun =>
        cases h
        exact ⟨s, rfl, .inr hrun⟩
      · cases h

namespace IsInStep

variable {schema : Schema} {drawn : List Int64}

/-- No two sequences are taken up under one name. -/
theorem nodup_takenUp (h : schema.IsInStep drawn) :
    ((schema.catalog.entries.filterMap takenUp?).map Prod.fst).Nodup := by
  refine List.pairwise_map.mpr (List.pairwise_filterMap.mpr ?_)
  refine (h.ready.pairwise_entries h.sorted).imp fun {e e'} hne b hb b' hb' hsame => hne ?_
  obtain ⟨hname, d, hd, -⟩ := takenUp?_eq_some_iff.mp hb
  obtain ⟨hname', d', hd', -⟩ := takenUp?_eq_some_iff.mp hb'
  rw [key_of_sequence hd, key_of_sequence hd', hname, hname', hsame]

/-- A name is known again exactly if it has an entry, and what is known is taken up from there. -/
theorem get?_takenUpAgain (h : schema.IsInStep drawn) (name : String) (s : Sequence) :
    (takenUpAgain schema.catalog).get? name = some s ↔
      name ≠ objectIdsName ∧ ∃ e ∈ schema.catalog.entries, e.name = name ∧
        ∃ d, e.object = .sequence d ∧ Sequence.takenUp d = s := by
  -- Names are unique, and so the table has exactly the sequences that were found.
  have hnodup := (List.filter_sublist (p := fun e : String × Sequence =>
    decide (e.1 ≠ objectIdsName)).map Prod.fst).nodup h.nodup_takenUp
  have hmem : (takenUpAgain schema.catalog).get? name = some s ↔
      (name, s) ∈ (schema.catalog.entries.filterMap takenUp?).filter
        fun e => e.1 ≠ objectIdsName := by
    rw [takenUpAgain, Table.get?_ofList hnodup]
    exact ⟨Table.mem_of_find?, Table.find?_of_mem hnodup⟩
  rw [hmem, List.mem_filter, List.mem_filterMap, and_comm]
  simp only [decide_eq_true_eq, takenUp?_eq_some_iff]

/-- A sequence that is known and not temporary is taken up from its entry. -/
theorem exists_takenUp (h : schema.IsInStep drawn) {name : String} {s : Sequence}
    (hs : schema.sequences.get? name = some s) (htemporary : s.temporary = false) :
    ∃ d, (takenUpAgain schema.catalog).get? name = some (Sequence.takenUp d) ∧
      d.Resumes s s.margin := by
  have hregistered := h.registered hs
  -- A lasting sequence has its definition in the catalog.
  obtain ⟨d, hstored, hresumes⟩ := (hregistered.kept htemporary).stored
  have hkey : s.entryKey = ⟨.sequence, name⟩ := congrArg (ObjectKey.mk .sequence) hregistered.named
  dsimp only at hstored
  rw [h.ready.entry?_eq, hkey] at hstored
  obtain ⟨e, hentry, hd⟩ := Option.map_eq_some_iff.mp hstored
  have he := Catalog.mem_entries_of_get? hentry
  have hname : e.name = name := by
    have hfiled := h.ready.filed _ (Table.mem_of_find? hentry)
    exact congrArg ObjectKey.name hfiled
  exact ⟨d, (h.get?_takenUpAgain name _).mpr ⟨hregistered.free, e, he, hname, d, hd, rfl⟩, hresumes⟩

/-- The attributes of what is known again are those of what was known and not temporary. -/
theorem attributes_takenUpAgain (h : schema.IsInStep drawn) (name : String) :
    ((takenUpAgain schema.catalog).get? name).map Sequence.attributes =
      ((schema.sequences.get? name).filter fun s => !s.temporary).map Sequence.attributes := by
  -- What is taken up again is a lasting sequence, and every lasting one is taken up.
  cases hagain : (takenUpAgain schema.catalog).get? name with
  | some t =>
    obtain ⟨hfree, e, he, rfl, d, hd, rfl⟩ := (h.get?_takenUpAgain _ _).mp hagain
    rcases h.resumes_of_mem he hd with ⟨hname, -⟩ | ⟨s, hs, htemporary, -, hresumes⟩
    · exact absurd hname hfree
    · simp [hs, Option.filter, htemporary, Sequence.attributes_takenUp hresumes]
  | none =>
    cases hs : schema.sequences.get? name with
    | none => rfl
    | some s =>
      cases htemporary : s.temporary with
      | true => simp [Option.filter, htemporary]
      | false =>
        obtain ⟨d, hd, -⟩ := h.exists_takenUp hs htemporary
        rw [hagain] at hd
        cases hd

/-- The sequence that numbers the objects is taken up from its entry. -/
theorem getLast?_objectIds (h : schema.IsInStep drawn) :
    ∃ name m largest, ((schema.catalog.entries.filterMap takenUp?).filter
        fun e => e.1 = objectIdsName).getLast? =
          some (name, Sequence.takenUp (schema.objectIds.definitionAt m)) ∧
      IsSafe 1 ⟨schema.objectIds, schema.catalog⟩ drawn m ∧
      IsTight 1 ⟨schema.objectIds, schema.catalog⟩ m largest := by
  obtain ⟨m, -, hsafe, -⟩ := h.numbers
  have hentry := hsafe.stored
  rw [h.ready.entry?_eq] at hentry
  dsimp only at hentry
  rw [h.entryKey_objectIds] at hentry
  -- There is an entry under the reserved name, and so there is a last one.
  have hfound : (objectIdsName, Sequence.takenUp (schema.objectIds.definitionAt m)) ∈
      (schema.catalog.entries.filterMap takenUp?).filter fun e => e.1 = objectIdsName := by
    refine List.mem_filter.mpr ⟨List.mem_filterMap.mpr ⟨_, Catalog.mem_entries_of_get? hentry,
      takenUp?_eq_some_iff.mpr ⟨h.name_objectIds, _, rfl, rfl⟩⟩, decide_eq_true rfl⟩
  have hlast := List.getLast?_eq_some_getLast (List.ne_nil_of_mem hfound)
  generalize List.getLast _ _ = last at hlast
  obtain ⟨name, s⟩ := last
  obtain ⟨hmem, hname⟩ := List.mem_filter.mp (List.mem_of_getLast? hlast)
  obtain ⟨e, he, htaken⟩ := List.mem_filterMap.mp hmem
  obtain ⟨rfl, d, hd, rfl⟩ := takenUp?_eq_some_iff.mp htaken
  -- The last entry under the reserved name belongs to the sequence of numbers itself.
  rcases h.resumes_of_mem he hd with ⟨-, m', largest, hsafe', htight, rfl, -⟩ | ⟨t, ht, -⟩
  · exact ⟨e.name, m', largest, hlast, hsafe', htight⟩
  · exact absurd (of_decide_eq_true hname) (h.registered ht).free

/-- A schema can be opened on the catalog of another one, and it knows the sequences of that one
which were not temporary. -/
theorem reopen (h : schema.IsInStep drawn) (defaultCache : Int64) :
    ∃ schema', openWithCache defaultCache schema.catalog = (.ok schema', schema.catalog) ∧
      schema'.IsInStep drawn ∧ schema'.sequences = takenUpAgain schema.catalog := by
  obtain ⟨name, m, largest, hlast, hsafe, htight⟩ := h.getLast?_objectIds
  -- The sequence of numbers is taken up where its margin was stored.
  obtain ⟨q, hrebuild⟩ := hsafe.exists_rebuild htight
  have hsafe' := hsafe.rebuild hrebuild
  have htight' := hsafe.tight_rebuild htight hrebuild
  obtain rfl := hsafe.eq_of_rebuild hrebuild
  let objectIds := Sequence.takenUp (schema.objectIds.definitionAt m)
  have hfound : recoverAll schema.catalog.entries =
      .ok (schema.catalog.entries.filterMap takenUp?) :=
    recoverAll_eq fun e he d hd => h.recoverable_of_mem he hd
  let schema' : Schema :=
    ⟨schema.catalog, max defaultCache 1, takenUpAgain schema.catalog, objectIds⟩
  -- The catalog is read alone, and the registry is made from what it says.
  refine ⟨schema', ?_, ?_, rfl⟩
  · rw [openWithCache_eq, hfound]
    dsimp only
    rw [hlast]
    rfl
  · exact
      { ready := h.ready
        sorted := h.sorted
        distinct := Table.isSorted_ofList _
        numbers := ⟨_, largest, hsafe', htight'⟩
        numbering := by
          have hsame := hsafe.definitionAt_of_rebuild hrebuild 0
          exact (Sequence.attributes_of_definitionAt hsame).trans h.numbering
        within := h.within
        registered := by
          -- Each entry makes a registered sequence under its own name.
          intro name s hs
          obtain ⟨hfree, e, he, rfl, d, hd, rfl⟩ := (h.get?_takenUpAgain _ _).mp hs
          have hrecoverable := h.recoverable_of_mem he hd
          have hnamed : d.name = e.name := by
            rcases h.resumes_of_mem he hd with ⟨hname, -⟩ | ⟨s, -, -, hname, hresumes⟩
            · exact absurd hname hfree
            · exact hresumes.name.trans hname
          have hstored : (schema.catalog.entry? ⟨.sequence, d.name⟩).map CatalogEntry.object =
              some (.sequence d) := by
            have hentry := h.ready.get?_of_mem h.sorted he
            rw [key_of_sequence hd, ← hnamed] at hentry
            rw [h.ready.entry?_eq, hentry, Option.map_some, hd]
          have hkept := StoredSequence.isKept_takenUp h.ready hstored hrecoverable
          exact ⟨hnamed, hfree, hkept.regular, fun _ => hkept⟩
        entries := by
          -- Each lasting entry is found among the sequences that were taken up.
          intro name e he
          rcases h.entries he with hname | ⟨s, hs, htemporary⟩
          · exact .inl hname
          · obtain ⟨d, hd, -⟩ := h.exists_takenUp hs htemporary
            exact .inr ⟨_, hd, rfl⟩ }

end IsInStep

/-! ## Opening at first -/

/-- On an empty catalog the sequence that numbers the objects is created, and none is known. -/
theorem isInStep_of_empty {catalog : Catalog} (hready : catalog.IsReady)
    (hempty : catalog.store.committed = Table.empty) (defaultCache : Int64) :
    ∃ schema catalog', openWithCache defaultCache catalog = (.ok schema, catalog') ∧
      schema.IsInStep [] := by
  let s := Sequence.ofDefinition objectIdsStart
  obtain ⟨catalog', hcreate, hready', hcommitted⟩ := runOn_createObjectIds hready
  have hsame : catalog.SameBut ⟨.sequence, objectIdsName⟩ catalog' :=
    .of_committed hready' hcommitted
  have hsorted : catalog.store.committed.IsSorted := hempty ▸ Table.isSorted_empty
  have hstored : catalog'.entry? s.entryKey = some (.ofSequence s.definition) := by
    rw [hready'.entry?_eq, hcommitted]
    exact Table.get?_insert_self _ _ _
  obtain ⟨hsafe, htight⟩ :=
    isSafe_ofDefinition (d := objectIdsStart) (by decide) rfl rfl hready' hstored
  -- An empty catalog has no entries to scan, and so the sequence of numbers is created.
  have hnone : catalog.entries = [] := by
    rw [Catalog.entries, CatalogStore.entries, hempty]
    rfl
  refine ⟨⟨catalog', max defaultCache 1, Table.empty, s⟩, catalog', ?_,
    { ready := hready'
      sorted := hsame.sorted hsorted
      distinct := Table.isSorted_empty
      numbers := ⟨_, _, hsafe, htight⟩
      numbering := rfl
      within := nofun
      registered := nofun
      entries := ?_ }⟩
  · rw [openWithCache_eq, hnone]
    dsimp only [recoverAll, List.filter_nil, List.getLast?_nil]
    rw [hcreate]
    rfl
  · -- The only entry is the one that was just created.
    intro name e he
    by_cases hname : name = objectIdsName
    · exact .inl hname
    · rw [hsame.others _ (ne_entryKey hname), hempty] at he
      cases he

end Schema

end TxnStore
