import TxnStore.Catalog

/-!
# Batches that take effect

On a catalog whose store does not fail, a batch of one write is committed: the committed entries are
those before it with the write in effect, and nothing stays staged.
-/

namespace TxnStore

open TxnStore.Action

/-! ## Stores without faults -/

/-- No call of a store fails. -/
def CatalogBacking.IsReliable : CatalogBacking → Prop
  | memory faults => faults = ⟨false, false, false⟩
  | document file => file.writable = true

/-- No call of a store in memory fails. -/
def CatalogBacking.IsFaultless : CatalogBacking → Prop
  | memory faults => faults = ⟨false, false, false⟩
  | document _ => True

theorem CatalogBacking.IsReliable.isFaultless {backing : CatalogBacking}
    (h : backing.IsReliable) : backing.IsFaultless := by
  cases backing with
  | memory faults => exact h
  | document file => trivial

namespace CatalogStore

variable {s : CatalogStore}

/-- Writes are staged also where the document cannot be replaced. -/
theorem runOn_stage (h : s.backing.IsFaultless) (w : StagedWrite) (call : CatalogFaults → Bool)
    (hcall : call ⟨false, false, false⟩ = false) :
    (stage w call).runOn s = (.ok (), { s with staged := s.staged ++ [w] }) := by
  -- A call that is not set to fail has no other way to fail.
  have hworks : s.isSetToFail call = false := by
    unfold isSetToFail
    cases hb : s.backing with
    | document file => rfl
    | memory faults =>
      rw [hb] at h
      obtain rfl : faults = ⟨false, false, false⟩ := h
      exact hcall
  rw [stage, runOn_bind, runOn_get]
  simp [hworks]

/-- Staged writes are committed, whether to memory or to a document. -/
theorem runOn_commit (h : s.backing.IsReliable) :
    ∃ backing, backing.IsReliable ∧ commit.runOn s = (.ok (), { s.applied with backing }) := by
  obtain ⟨committed, staged, backing⟩ := s
  rw [commit, runOn_bind, runOn_get]
  -- In memory, and with a document that can be replaced, the commit goes through.
  cases backing with
  | memory faults =>
    obtain rfl : faults = ⟨false, false, false⟩ := h
    exact ⟨.memory ⟨false, false, false⟩, rfl, rfl⟩
  | document file =>
    have hwritable : file.writable = true := h
    cases staged with
    | nil => exact ⟨.document file, hwritable, rfl⟩
    | cons w rest =>
      refine ⟨.document { file with item := .file (Text.toBytes (CatalogDocument.text
        ((w :: rest).foldl StagedWrite.applyTo committed).values)) }, hwritable, ?_⟩
      simp only [List.isEmpty_cons, replaceDocument, if_pos hwritable]
      rfl

end CatalogStore

/-! ## Batches -/

namespace CatalogBatch

variable {c : Catalog}

def staging (b : CatalogBatch) (w : StagedWrite) : CatalogBatch :=
  counted { b with catalog := { b.catalog with
    store := { b.catalog.store with staged := b.catalog.store.staged ++ [w] } } }

theorem runOn_write {b : CatalogBatch} (h : b.catalog.store.backing.IsFaultless)
    (e : CatalogEntry) : (write e).runOn b = (.ok (), b.staging (.write e)) := by
  have hstage := CatalogStore.runOn_stage h (.write e) (·.write) rfl
  rw [write, runOn_bind, onStore, runOn_onPart, CatalogStore.write, hstage]
  rfl

theorem runOn_remove {b : CatalogBatch} (h : b.catalog.store.backing.IsFaultless)
    (key : ObjectKey) : (remove key).runOn b = (.ok (), b.staging (.remove key)) := by
  have hstage := CatalogStore.runOn_stage h (.remove key) (·.remove) rfl
  rw [remove, runOn_bind, onStore, runOn_onPart, CatalogStore.remove, hstage]
  rfl

/-- The batch ends clean with the answer of its store; what its store still stages is discarded. -/
theorem runOn_commit_dirty (s : CatalogStore) (stats : CatalogStats) :
    ∃ stats', commit.runOn ⟨⟨s, stats⟩, true⟩ =
      match CatalogStore.commit.runOn s with
      | (.ok _, s') => (.ok (), ⟨⟨s', stats'⟩, false⟩)
      | (.error err, s') => (.error err, ⟨⟨s'.rollback, stats'⟩, false⟩) := by
  rw [commit, runOn_bind, runOn_get]
  simp only [if_true, runOn_bind, runOn_attempt, onStore, runOn_onPart]
  rcases CatalogStore.commit.runOn s with ⟨err | u, s'⟩
  · exact ⟨_, rfl⟩
  · exact ⟨_, rfl⟩

/-- Committing a batch puts what it staged into effect. -/
theorem runOn_commit {b : CatalogBatch} (h : b.catalog.store.backing.IsReliable)
    (hdirty : b.dirty = true) :
    ∃ c', commit.runOn b = (.ok (), ⟨c', false⟩) ∧
      c'.store.committed = b.catalog.store.merged ∧ c'.store.staged = [] ∧
      c'.store.backing.IsReliable := by
  obtain ⟨backing, hbacking, hcommit⟩ := CatalogStore.runOn_commit h
  obtain ⟨⟨store, stats⟩, dirty⟩ := b
  obtain rfl : dirty = true := hdirty
  obtain ⟨stats', hrun⟩ := runOn_commit_dirty store stats
  rw [hcommit] at hrun
  exact ⟨_, hrun, rfl, rfl, hbacking⟩

end CatalogBatch

/-! ## Catalogs without faults -/

/-- Each entry is filed under its own key. -/
def Filed (t : Table ObjectKey CatalogEntry) : Prop := ∀ b ∈ t.toList, b.2.key = b.1

theorem Filed.applyTo {t : Table ObjectKey CatalogEntry} (h : Filed t) (w : StagedWrite) :
    Filed (w.applyTo t) := by
  intro b hb
  cases w with
  | write e =>
    rcases Table.mem_place hb with rfl | hb
    · rfl
    · exact h b hb
  | remove key => exact h b (List.mem_filter.mp hb).1

/-- A catalog whose store does not fail and has nothing staged. -/
structure Catalog.IsReady (c : Catalog) : Prop where
  reliable : c.store.backing.IsReliable
  staged : c.store.staged = []
  filed : Filed c.store.committed

/-- A batch of one write is committed. -/
theorem CatalogBatch.runOn_commit_staging {c : Catalog} (h : c.IsReady) (dirty : Bool)
    (w : StagedWrite) :
    ∃ c', commit.runOn ((CatalogBatch.mk c dirty).staging w) = (.ok (), ⟨c', false⟩) ∧
      c'.IsReady ∧ c'.store.committed = w.applyTo c.store.committed := by
  obtain ⟨c', hrun, hcommitted, hstaged, hreliable⟩ :=
    runOn_commit (b := (CatalogBatch.mk c dirty).staging w) h.reliable rfl
  have hmerged : c'.store.committed = w.applyTo c.store.committed := by
    rw [hcommitted]
    show (c.store.staged ++ [w]).foldl StagedWrite.applyTo c.store.committed = _
    rw [h.staged]
    rfl
  exact ⟨c', hrun, ⟨hreliable, hstaged, hmerged ▸ h.filed.applyTo w⟩, hmerged⟩

namespace Catalog

variable {c : Catalog}

/-! ### Opening -/

theorem isReady_inMemory : inMemory.IsReady := ⟨rfl, rfl, fun _ hb => by cases hb⟩

/-- The entries of a document are filed in the order in which they stand there. -/
theorem filed_table (entries : List CatalogEntry) : Filed (CatalogDocument.table entries) := by
  unfold CatalogDocument.table Table.ofList
  suffices hgoOn : ∀ t, Filed t → Filed ((entries.map fun e => (e.key, e)).foldl
      (fun t e => t.insert e.1 e.2) t) from
    hgoOn Table.empty fun _ hb => by cases hb
  induction entries with
  | nil => exact fun _ ht => ht
  | cons e rest ih => exact fun t ht => ih _ (ht.applyTo (.write e))

/-! ### Writing -/

theorem IsReady.persist (h : c.IsReady) (e : CatalogEntry) :
    ∃ c', (persist e).runOn c = (.ok (), c') ∧ c'.IsReady ∧
      c'.store.committed = c.store.committed.insert e.key e := by
  obtain ⟨c', hcommit, hready, hcommitted⟩ :=
    CatalogBatch.runOn_commit_staging h false (.write e)
  refine ⟨c', ?_, hready, hcommitted⟩
  have hwrite := CatalogBatch.runOn_write (b := ⟨c, false⟩) h.reliable.isFaultless e
  simp only [Catalog.persist, inBatch, runOn_mk, runOn_bind, hwrite, hcommit]
  rfl

theorem IsReady.forget (h : c.IsReady) (key : ObjectKey) :
    ∃ c', (forget key).runOn c = (.ok (), c') ∧ c'.IsReady ∧
      c'.store.committed = c.store.committed.erase key := by
  obtain ⟨c', hcommit, hready, hcommitted⟩ :=
    CatalogBatch.runOn_commit_staging h false (.remove key)
  refine ⟨c', ?_, hready, hcommitted⟩
  have hremove := CatalogBatch.runOn_remove (b := ⟨c, false⟩) h.reliable.isFaultless key
  simp only [Catalog.forget, inBatch, runOn_mk, runOn_bind, hremove, hcommit]
  rfl

theorem find?_values {l : List (ObjectKey × CatalogEntry)} (h : ∀ b ∈ l, b.2.key = b.1)
    (key : ObjectKey) : (l.map Prod.snd).find? (fun e => e.key = key) = Table.find? key l := by
  induction l with
  | nil => rfl
  | cons b rest ih =>
    have hfirst := h b List.mem_cons_self
    rw [List.map_cons, List.find?_cons, Table.find?, hfirst,
      ih fun b' hb' => h b' (List.mem_cons_of_mem _ hb')]
    by_cases hb : b.1 = key <;> simp [hb]

/-- The entry that is found by its key is the one that is filed under it. -/
theorem IsReady.entry?_eq (h : c.IsReady) (key : ObjectKey) :
    c.entry? key = c.store.committed.get? key :=
  find?_values h.filed key

end Catalog

end TxnStore
