import TxnStore.Proofs.Catalog.Batches

/-!
# Batches that may fail

A store may fail at any call. A batch of one write then either takes effect as a whole or leaves the
committed entries as they were, and in both cases nothing stays staged.
-/

namespace TxnStore

open TxnStore.Action

/-! ## Setting faults -/

/-- No call of the store is set to fail. -/
def CatalogFaults.none : CatalogFaults := ⟨false, false, false⟩

/-- The commits of the store are set to fail. -/
def CatalogFaults.atCommit : CatalogFaults := ⟨false, false, true⟩

/-- The store behind a catalog, set to fail at given calls. A document has only its commit to fail
at: it cannot be replaced. -/
def CatalogBacking.withFaults (backing : CatalogBacking) (faults : CatalogFaults) :
    CatalogBacking :=
  match backing with
  | memory _ => .memory faults
  | document file => .document { file with writable := !faults.commit }

/-- The catalog with its store set to fail at given calls. -/
def Catalog.withFaults (c : Catalog) (faults : CatalogFaults) : Catalog :=
  { c with store := { c.store with backing := c.store.backing.withFaults faults } }

theorem Catalog.withFaults_withFaults (c : Catalog) (faults faults' : CatalogFaults) :
    (c.withFaults faults).withFaults faults' = c.withFaults faults' := by
  obtain ⟨⟨committed, staged, backing⟩, stats⟩ := c
  cases backing <;> rfl

/-! ## Stores that fail alike -/

/-- Two stores fail at the same calls: both are set to fail at the same ones, or the documents of
both can be replaced, or of neither. -/
def CatalogStore.FailsLike (s s' : CatalogStore) : Prop :=
  match s.backing, s'.backing with
  | .memory faults, .memory faults' => faults = faults'
  | .document file, .document file' => file.writable = file'.writable
  | _, _ => False

namespace CatalogStore.FailsLike

variable {s s' s'' : CatalogStore}

theorem of_backing (h : s'.backing = s.backing) : s.FailsLike s' := by
  unfold FailsLike
  rw [h]
  cases s.backing <;> rfl

theorem refl (s : CatalogStore) : s.FailsLike s := of_backing rfl

theorem symm (h : s.FailsLike s') : s'.FailsLike s := by
  unfold FailsLike at *
  split at h <;> simp_all

theorem trans (h : s.FailsLike s') (h' : s'.FailsLike s'') : s.FailsLike s'' := by
  unfold FailsLike at *
  split at h <;> split at h' <;> simp_all

theorem isSetToFail (h : s.FailsLike s') (call : CatalogFaults → Bool) :
    s.isSetToFail call = s'.isSetToFail call := by
  unfold FailsLike CatalogStore.isSetToFail at *
  split at h <;> simp_all

end CatalogStore.FailsLike

/-- What committing staged writes answers. -/
def CatalogStore.commitAnswer (s : CatalogStore) : Except StoreError Unit :=
  match s.backing with
  | .memory faults => if faults.commit then .error (.device .diskFull) else .ok ()
  | .document file => if file.writable then .ok () else .error (.device .host)

theorem CatalogStore.FailsLike.commitAnswer {s s' : CatalogStore} (h : s.FailsLike s') :
    s.commitAnswer = s'.commitAnswer := by
  unfold FailsLike CatalogStore.commitAnswer at *
  split at h <;> simp_all

/-- Catalogs that fail alike do so also when they are set to fail at other calls. -/
theorem CatalogStore.FailsLike.withFaults {c c' : Catalog} (h : c.store.FailsLike c'.store)
    (faults : CatalogFaults) :
    (c.withFaults faults).store.FailsLike (c'.withFaults faults).store := by
  unfold FailsLike Catalog.withFaults CatalogBacking.withFaults at *
  split at h <;> simp_all

/-! ## Single calls -/

/-- A write is staged unless the call is set to fail. -/
theorem CatalogStore.runOn_stage_if (s : CatalogStore) (w : StagedWrite)
    (call : CatalogFaults → Bool) :
    (stage w call).runOn s =
      if s.isSetToFail call then (.error (.device .diskFull), s)
      else (.ok (), { s with staged := s.staged ++ [w] }) := by
  rw [stage, runOn_bind, runOn_get]
  cases hfails : s.isSetToFail call with
  | true => simp [hfails]
  | false => simp [hfails]

/-- Committing puts the staged writes into effect, or the committed entries stay as they are. -/
theorem CatalogStore.commit_cases (s : CatalogStore) :
    (∃ backing, s.FailsLike { s.applied with backing } ∧
        commit.runOn s = (.ok (), { s.applied with backing })) ∨
      ∃ err staged, commit.runOn s = (.error err, { s with staged }) := by
  obtain ⟨committed, staged, backing⟩ := s
  rw [commit, runOn_bind, runOn_get]
  -- In memory the commit is set to fail, and on disk the file cannot be written.
  cases backing with
  | memory faults =>
    cases hfails : faults.commit with
    | true =>
      right
      exact ⟨.device .diskFull, staged, by simp [hfails]⟩
    | false =>
      left
      exact ⟨.memory faults, rfl, by simp [hfails, applied]⟩
  | document file =>
    cases staged with
    | nil => exact .inl ⟨.document file, rfl, rfl⟩
    | cons w rest =>
      simp only [List.isEmpty_cons, replaceDocument]
      cases hwritable : file.writable with
      | true =>
        refine .inl ⟨_, ?_, rfl⟩
        exact hwritable
      | false => exact .inr ⟨_, [], rfl⟩

theorem CatalogStore.runOn_commit_answer {s : CatalogStore} (hstaged : s.staged ≠ []) :
    (commit.runOn s).1 = s.commitAnswer := by
  obtain ⟨committed, staged, backing⟩ := s
  rw [commit, runOn_bind, runOn_get, commitAnswer]
  -- With something staged, the document is what decides.
  cases backing with
  | memory faults => cases hfails : faults.commit <;> simp [hfails]
  | document file =>
    cases staged with
    | nil => exact absurd rfl hstaged
    | cons w rest =>
      simp only [List.isEmpty_cons, replaceDocument]
      cases hwritable : file.writable <;> rfl

/-- A write is staged in a batch unless the call is set to fail. -/
theorem CatalogBatch.runOn_stage_if (b : CatalogBatch) (w : StagedWrite)
    (call : CatalogFaults → Bool) :
    (do onStore (CatalogStore.stage w call); modify counted : Action CatalogBatch Unit).runOn b =
      if b.catalog.store.isSetToFail call then (.error (.device .diskFull), b)
      else (.ok (), b.staging w) := by
  rw [runOn_bind, onStore, runOn_onPart, b.catalog.store.runOn_stage_if]
  cases b.catalog.store.isSetToFail call <;> rfl

theorem CatalogBatch.runOn_write_if (b : CatalogBatch) (e : CatalogEntry) :
    (write e).runOn b =
      if b.catalog.store.isSetToFail (·.write) then (.error (.device .diskFull), b)
      else (.ok (), b.staging (.write e)) :=
  b.runOn_stage_if (.write e) (·.write)

theorem CatalogBatch.write_cases (b : CatalogBatch) (e : CatalogEntry) :
    (write e).runOn b = (.ok (), b.staging (.write e)) ∨
      ∃ err, (write e).runOn b = (.error err, b) := by
  rw [b.runOn_write_if]
  split
  · exact .inr ⟨_, rfl⟩
  · exact .inl rfl

theorem CatalogBatch.remove_cases (b : CatalogBatch) (key : ObjectKey) :
    (remove key).runOn b = (.ok (), b.staging (.remove key)) ∨
      ∃ err, (remove key).runOn b = (.error err, b) := by
  have hrun := b.runOn_stage_if (.remove key) (·.remove)
  split at hrun
  · exact .inr ⟨_, hrun⟩
  · exact .inl hrun

/-- Committing one more write answers as its store does, and a commit that fails leaves the
committed entries as they were. -/
theorem CatalogBatch.runOn_commit_staging_answer (c : Catalog) (dirty : Bool) (w : StagedWrite) :
    ∃ c', commit.runOn ((CatalogBatch.mk c dirty).staging w) =
        (c.store.commitAnswer, ⟨c', false⟩) ∧
      c.store.FailsLike c'.store ∧
      ∀ err, c.store.commitAnswer = .error err → c'.store.committed = c.store.committed := by
  let s := { c.store with staged := c.store.staged ++ [w] }
  have hanswer : (CatalogStore.commit.runOn s).1 = c.store.commitAnswer :=
    CatalogStore.runOn_commit_answer (by simp [s])
  obtain ⟨stats, hrun⟩ :=
    runOn_commit_dirty s { c.stats with writes := c.stats.writes + 1 }
  -- The answer of the batch is that of the store, and what it applied is lost where it failed.
  rcases s.commit_cases with ⟨backing, hlike, hcommit⟩ | ⟨err, staged, hcommit⟩
  · rw [hcommit] at hrun hanswer
    rw [← hanswer]
    exact ⟨_, hrun, hlike, nofun⟩
  · rw [hcommit] at hrun hanswer
    rw [← hanswer]
    exact ⟨_, hrun, .of_backing rfl, fun _ _ => rfl⟩

/-- What a batch commits does not change where its store fails. -/
theorem CatalogBatch.failsLike_commit (b : CatalogBatch) :
    b.catalog.store.FailsLike (commit.runOn b).2.catalog.store := by
  obtain ⟨⟨store, stats⟩, dirty⟩ := b
  -- A batch without writes commits nothing.
  cases dirty with
  | false => exact .refl _
  | true =>
    obtain ⟨stats', hrun⟩ := runOn_commit_dirty store stats
    rcases store.commit_cases with ⟨backing, hlike, hcommit⟩ | ⟨err, staged, hcommit⟩
    · rw [hcommit] at hrun
      rwa [hrun]
    · rw [hcommit] at hrun
      rw [hrun]
      exact .of_backing rfl

theorem CatalogBatch.failsLike_drop (b : CatalogBatch) :
    b.catalog.store.FailsLike b.drop.store := by
  unfold drop
  split <;> exact .of_backing rfl

/-! ## Batches of one write -/

/-- A catalog that is not in the middle of a batch. -/
structure Catalog.IsIdle (c : Catalog) : Prop where
  staged : c.store.staged = []
  filed : Filed c.store.committed

namespace Catalog

variable {c : Catalog}

theorem IsReady.idle (h : c.IsReady) : c.IsIdle := ⟨h.staged, h.filed⟩

theorem IsIdle.withFaults (h : c.IsIdle) (faults : CatalogFaults) : (c.withFaults faults).IsIdle :=
  ⟨h.staged, h.filed⟩

/-- The entry that is found by its key is the one that is filed under it. -/
theorem IsIdle.entry?_eq (h : c.IsIdle) (key : ObjectKey) :
    c.entry? key = c.store.committed.get? key :=
  find?_values h.filed key

end Catalog

/-- Committing a batch of one write puts it into effect or leaves the entries as they were. -/
theorem CatalogBatch.commit_staging_cases {c : Catalog} (h : c.IsIdle) (dirty : Bool)
    (w : StagedWrite) :
    ∃ c', c'.IsIdle ∧
      ((commit.runOn ((CatalogBatch.mk c dirty).staging w) = (.ok (), ⟨c', false⟩) ∧
          c'.store.committed = w.applyTo c.store.committed) ∨
        ∃ err, commit.runOn ((CatalogBatch.mk c dirty).staging w) = (.error err, ⟨c', false⟩) ∧
          c'.store.committed = c.store.committed) := by
  let b := (CatalogBatch.mk c dirty).staging w
  have hmerged : b.catalog.store.merged = w.applyTo c.store.committed := by
    show (c.store.staged ++ [w]).foldl StagedWrite.applyTo c.store.committed = _
    rw [h.staged]
    rfl
  have hdirty : b.dirty = true := rfl
  rw [commit, runOn_bind, runOn_get]
  simp only [hdirty, if_true, runOn_bind, runOn_attempt, onStore, runOn_onPart, b]
  -- The store applies the staged write, or it leaves the entries as they are.
  rcases CatalogStore.commit_cases b.catalog.store with ⟨backing, -, hrun⟩ | ⟨err, staged, hrun⟩
  · let store := { b.catalog.store.applied with backing }
    refine ⟨(committed { b with catalog := { b.catalog with store } }).catalog, ⟨rfl, ?_⟩,
      .inl ⟨?_, hmerged⟩⟩
    · show Filed b.catalog.store.merged
      rw [hmerged]
      exact h.filed.applyTo w
    · rw [hrun]
      rfl
  · let store := { b.catalog.store with staged }
    refine ⟨(discarded { b with catalog := { b.catalog with store } }).catalog, ⟨rfl, h.filed⟩,
      .inr ⟨err, ?_, rfl⟩⟩
    rw [hrun]
    rfl

namespace Catalog.IsIdle

variable {c : Catalog}

/-- A batch that stages one write and commits it puts it into effect or leaves the entries as they
were. -/
theorem inBatch_cases (h : c.IsIdle) {stage : Action CatalogBatch Unit} {w : StagedWrite}
    (hstage : stage.runOn ⟨c, false⟩ = (.ok (), (CatalogBatch.mk c false).staging w) ∨
      ∃ err, stage.runOn ⟨c, false⟩ = (.error err, ⟨c, false⟩)) :
    ∃ c', c'.IsIdle ∧
      (((inBatch do stage; CatalogBatch.commit).runOn c = (.ok (), c') ∧
          c'.store.committed = w.applyTo c.store.committed) ∨
        ∃ err, (inBatch do stage; CatalogBatch.commit).runOn c = (.error err, c') ∧
          c'.store.committed = c.store.committed) := by
  rcases hstage with hstaged | ⟨err, hfails⟩
  · -- What was staged is committed, or the commit fails.
    obtain ⟨c', hidle, hcases⟩ := CatalogBatch.commit_staging_cases h false w
    refine ⟨c', hidle, hcases.imp ?_ ?_⟩
    · rintro ⟨hcommit, hcommitted⟩
      refine ⟨?_, hcommitted⟩
      simp only [inBatch, runOn_mk, runOn_bind, hstaged, hcommit]
      rfl
    · rintro ⟨err, hcommit, hcommitted⟩
      refine ⟨err, ?_, hcommitted⟩
      simp only [inBatch, runOn_mk, runOn_bind, hstaged, hcommit]
      rfl
  · -- What could not be staged is not committed either.
    refine ⟨c, h, .inr ⟨err, ?_, rfl⟩⟩
    simp only [inBatch, runOn_mk, runOn_bind, hfails]
    rfl

theorem persist_cases (h : c.IsIdle) (e : CatalogEntry) :
    ∃ c', c'.IsIdle ∧
      (((persist e).runOn c = (.ok (), c') ∧
          c'.store.committed = c.store.committed.insert e.key e) ∨
        ∃ err, (persist e).runOn c = (.error err, c') ∧
          c'.store.committed = c.store.committed) :=
  h.inBatch_cases (w := .write e) (CatalogBatch.write_cases _ e)

theorem forget_cases (h : c.IsIdle) (key : ObjectKey) :
    ∃ c', c'.IsIdle ∧
      (((forget key).runOn c = (.ok (), c') ∧
          c'.store.committed = c.store.committed.erase key) ∨
        ∃ err, (forget key).runOn c = (.error err, c') ∧
          c'.store.committed = c.store.committed) :=
  h.inBatch_cases (w := .remove key) (CatalogBatch.remove_cases _ key)

end Catalog.IsIdle

end TxnStore
