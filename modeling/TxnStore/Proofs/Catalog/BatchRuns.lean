import TxnStore.Proofs.Catalog.Documents

/-!
# Runs of batches

Batches are made one after the other on a catalog in memory or in a document. Each stages writes and
is then committed or dropped, and a commit fails where the document cannot be replaced. The entries
are those of the batches whose commit succeeded, replayed in order; any other batch leaves no trace,
neither in the entries nor staged for a later batch. The document always holds the entries: opened
after any of the batches, it gives them again.
-/

namespace TxnStore

open TxnStore.Action

/-! ## Batches -/

inductive BatchEnd where
  /-- It is committed; a document can be replaced meanwhile or not. -/
  | commit (writable : Bool)
  | drop
deriving DecidableEq, Repr

/-- The writes that a batch stages and how it ends. -/
structure PlannedBatch where
  writes : List StagedWrite
  ending : BatchEnd
deriving DecidableEq, Repr

namespace CatalogBatch

def stage : StagedWrite → Action CatalogBatch Unit
  | .write e => write e
  | .remove key => remove key

/-- Stages writes one after the other. -/
def stageAll : List StagedWrite → Action CatalogBatch Unit
  | [] => pure ()
  | w :: rest => do
    stage w
    stageAll rest

/-- Ends a batch but for dropping what it leaves staged. -/
def finish : BatchEnd → Action CatalogBatch Unit
  | .commit _ => commit
  | .drop => pure ()

end CatalogBatch

def CatalogStore.path? (s : CatalogStore) : Option String := s.document?.map (·.path)

/-- The store with its document set to be replaceable or not; memory has no document. -/
def CatalogStore.withWritable (s : CatalogStore) (writable : Bool) : CatalogStore :=
  match s.document? with
  | none => s
  | some file => s.setDocument { file with writable }

namespace Catalog

/-- The catalog with its document set to be replaceable or not. -/
def withWritable (c : Catalog) (writable : Bool) : Catalog :=
  { c with store := c.store.withWritable writable }

/-- The catalog as a batch finds it that ends in a given way. -/
def preparedFor (c : Catalog) : BatchEnd → Catalog
  | .commit writable => c.withWritable writable
  | .drop => c

/-- Performs a batch; its answer is that of its commit. -/
def perform (c : Catalog) (p : PlannedBatch) : Except StoreError Unit × Catalog :=
  (inBatch do
    CatalogBatch.stageAll p.writes
    CatalogBatch.finish p.ending).runOn (c.preparedFor p.ending)

/-- Performs batches one after the other and keeps the answer of each. -/
def performAll (c : Catalog) : List PlannedBatch →
    List (PlannedBatch × Except StoreError Unit) × Catalog
  | [] => ([], c)
  | p :: rest =>
    let (answer, c') := c.perform p
    let (outcomes, c'') := c'.performAll rest
    ((p, answer) :: outcomes, c'')

/-- A catalog that was just opened: over entries in memory or over a document. -/
inductive IsFresh : Catalog → Prop
  | memory (entries : List CatalogEntry) :
    IsFresh (ofStore ⟨CatalogDocument.table entries, [], .memory ⟨false, false, false⟩⟩)
  | document {file : DocumentFile} {c : Catalog} (h : openFile file = .ok c) : IsFresh c

end Catalog

def PlannedBatch.isCommitted (p : PlannedBatch) (answer : Except StoreError Unit) : Bool :=
  match p.ending, answer with
  | .commit _, .ok _ => true
  | _, _ => false

/-- The entries after a batch: its writes take effect in order if it is committed. -/
def PlannedBatch.applyTo (t : Table ObjectKey CatalogEntry)
    (outcome : PlannedBatch × Except StoreError Unit) : Table ObjectKey CatalogEntry :=
  if outcome.1.isCommitted outcome.2 then outcome.1.writes.foldl StagedWrite.applyTo t else t

/-- The entries once the batches that are committed are replayed in order. -/
def replayed (t : Table ObjectKey CatalogEntry)
    (outcomes : List (PlannedBatch × Except StoreError Unit)) : Table ObjectKey CatalogEntry :=
  outcomes.foldl PlannedBatch.applyTo t

/-! ## Staging -/

namespace CatalogBatch

theorem runOn_stage {b : CatalogBatch} (h : b.catalog.store.backing.IsFaultless)
    (w : StagedWrite) : (stage w).runOn b = (.ok (), b.staging w) := by
  cases w with
  | write e => exact runOn_write h e
  | remove key => exact runOn_remove h key

/-- All writes of a batch are staged in order, and the batch is dirty if there are any. -/
theorem runOn_stageAll (ws : List StagedWrite) :
    ∀ b : CatalogBatch, b.catalog.store.backing.IsFaultless →
      ∃ stats, (stageAll ws).runOn b = (.ok (),
        ⟨⟨{ b.catalog.store with staged := b.catalog.store.staged ++ ws }, stats⟩,
          b.dirty || !ws.isEmpty⟩) := by
  -- By induction on the writes, as a staged write leaves the store able to take the next one.
  induction ws with
  | nil =>
    intro b _
    exact ⟨b.catalog.stats, by simp [stageAll]⟩
  | cons w rest ih =>
    intro b h
    obtain ⟨stats, hrest⟩ := ih (b.staging w) h
    refine ⟨stats, ?_⟩
    rw [stageAll, runOn_bind, runOn_stage h w]
    dsimp only
    rw [hrest]
    simp [staging, counted]

end CatalogBatch

/-! ## What a document holds -/

theorem StagedWrite.isSorted_applyTo {t : Table ObjectKey CatalogEntry} (h : t.IsSorted)
    (w : StagedWrite) : (w.applyTo t).IsSorted := by
  cases w with
  | write e => exact h.insert e.key e
  | remove key => exact h.erase key

theorem StagedWrite.isSorted_foldl (ws : List StagedWrite) :
    ∀ {t : Table ObjectKey CatalogEntry}, t.IsSorted → (ws.foldl applyTo t).IsSorted := by
  induction ws with
  | nil => exact id
  | cons w rest ih => exact fun h => ih (w.isSorted_applyTo h)

theorem StagedWrite.filed_foldl (ws : List StagedWrite) :
    ∀ {t : Table ObjectKey CatalogEntry}, Filed t → Filed (ws.foldl applyTo t) := by
  induction ws with
  | nil => exact id
  | cons w rest ih => exact fun h => ih (h.applyTo w)

def DocumentFile.holding (file : DocumentFile) (entries : List CatalogEntry) : DocumentFile :=
  { file with item := .file (Text.toBytes (CatalogDocument.text entries)) }

namespace CatalogStore

/-- The entries that a document gives when it is opened. -/
def storedIn (file : DocumentFile) : Except StoreError (Table ObjectKey CatalogEntry) :=
  (openFile file).map (·.committed)

/-- Whether a document can be replaced does not matter to what it gives. -/
theorem storedIn_writable (file : DocumentFile) (writable : Bool) :
    storedIn { file with writable } = storedIn file := by
  unfold storedIn openFile
  dsimp only
  split
  · rfl
  · rfl
  · split <;> rfl

/-- A document gives the entries that it was made of. -/
theorem storedIn_holding (file : DocumentFile) {t : Table ObjectKey CatalogEntry}
    (hsorted : t.IsSorted) (hfiled : Filed t) : storedIn (file.holding t.values) = .ok t := by
  have hread := CatalogDocument.read_text t.values
  have htable := CatalogDocument.table_values hsorted hfiled
  simp only [storedIn, openFile, DocumentFile.holding, DiskItem.bytes?, hread, htable]
  rfl

/-- What is known of a store that was opened over a document. -/
theorem openFile_ok {file : DocumentFile} {s : CatalogStore} (h : openFile file = .ok s) :
    s.staged = [] ∧ s.backing = .document file ∧ s.committed.IsSorted ∧ Filed s.committed := by
  unfold openFile at h
  -- A missing file is an empty catalog, and any other one has to be read.
  split at h
  · obtain rfl := Except.ok.inj h
    exact ⟨rfl, rfl, Table.isSorted_empty, fun _ hb => by cases hb⟩
  · cases h
  · split at h
    · next entries hread =>
      obtain rfl := Except.ok.inj h
      exact ⟨rfl, rfl, Table.isSorted_ofList _, Catalog.filed_table entries⟩
    · cases h

/-- The document of a store, where it has one, gives the entries of the store. -/
def IsStored (s : CatalogStore) : Prop :=
  ∀ file, s.document? = some file → storedIn file = .ok s.committed

end CatalogStore

/-! ## Catalogs between batches -/

/-- A catalog between batches: nothing is staged, each entry stands in its place under its own key,
and a document holds them all. -/
structure Catalog.IsSettled (c : Catalog) : Prop where
  faultless : c.store.backing.IsFaultless
  staged : c.store.staged = []
  sorted : c.store.committed.IsSorted
  filed : Filed c.store.committed
  stored : c.store.IsStored

namespace Catalog

variable {c : Catalog}

theorem IsFresh.isSettled (h : c.IsFresh) : c.IsSettled := by
  cases h with
  | memory entries =>
    exact ⟨rfl, rfl, Table.isSorted_ofList _, filed_table entries, fun file hfile => by cases hfile⟩
  | @document file _ h =>
    unfold openFile at h
    cases hopen : CatalogStore.openFile file with
    | error err =>
      rw [hopen] at h
      cases h
    | ok s =>
      rw [hopen] at h
      obtain rfl := Except.ok.inj h
      obtain ⟨hstaged, hbacking, hsorted, hfiled⟩ := CatalogStore.openFile_ok hopen
      -- What was read from the document is what the document is read to again.
      refine ⟨?_, hstaged, hsorted, hfiled, ?_⟩
      · show s.backing.IsFaultless
        rw [hbacking]
        trivial
      · intro file' hfile'
        have hsame : s.document? = some file := by rw [CatalogStore.document?, hbacking]
        obtain rfl := Option.some.inj (hsame.symm.trans hfile')
        show (CatalogStore.openFile file).map (·.committed) = .ok s.committed
        rw [hopen]
        rfl

/-- Between batches, a document can become replaceable or cease to be. -/
theorem IsSettled.withWritable (h : c.IsSettled) (writable : Bool) :
    (c.withWritable writable).IsSettled := by
  obtain ⟨⟨committed, staged, backing⟩, stats⟩ := c
  cases backing with
  | memory faults => exact h
  | document file =>
    refine ⟨trivial, h.staged, h.sorted, h.filed, fun file' hfile' => ?_⟩
    obtain rfl := Option.some.inj hfile'
    rw [CatalogStore.storedIn_writable]
    exact h.stored file rfl

end Catalog

/-! ## Single batches -/

/-- Committing staged writes puts them into effect, in the document too where there is one. It fails
where the document cannot be replaced; then the staged writes are gone. -/
theorem CatalogStore.commit_effect {s : CatalogStore} (hfaultless : s.backing.IsFaultless)
    (hsorted : s.committed.IsSorted) (hfiled : Filed s.committed) (hstaged : s.staged ≠ []) :
    (∃ backing, commit.runOn s = (.ok (), { s.applied with backing }) ∧ backing.IsFaultless ∧
        { s.applied with backing }.IsStored ∧
        { s.applied with backing }.path? = s.path?) ∨
      ∃ file, s.document? = some file ∧ file.writable = false ∧
        commit.runOn s = (.error (.device .host), { s with staged := [] }) := by
  have hsorted' : s.merged.IsSorted := StagedWrite.isSorted_foldl s.staged hsorted
  have hfiled' : Filed s.merged := StagedWrite.filed_foldl s.staged hfiled
  obtain ⟨committed, staged, backing⟩ := s
  have hnonempty : staged.isEmpty = false := by simpa using hstaged
  rw [commit, runOn_bind, runOn_get]
  cases backing with
  -- In memory nothing can fail, and there is no document to replace.
  | memory faults =>
    obtain rfl : faults = ⟨false, false, false⟩ := hfaultless
    refine .inl ⟨.memory ⟨false, false, false⟩, rfl, rfl, fun file hfile => ?_, rfl⟩
    cases hfile
  | document file =>
    obtain ⟨path, writable, item⟩ := file
    simp only [hnonempty, replaceDocument]
    cases writable with
    | false => exact .inr ⟨⟨path, false, item⟩, rfl, rfl, rfl⟩
    -- The document is replaced by one with the merged entries.
    | true =>
      let replaced := DocumentFile.holding ⟨path, true, item⟩
        (staged.foldl StagedWrite.applyTo committed).values
      refine .inl ⟨.document replaced, rfl, trivial, fun file hfile => ?_, rfl⟩
      obtain rfl := Option.some.inj hfile
      exact storedIn_holding ⟨path, true, item⟩ hsorted' hfiled'

namespace Catalog

variable {c : Catalog}

/-- What follows the staging of a batch finds its writes staged. -/
theorem IsSettled.runOn_inBatch (h : c.IsSettled) (ws : List StagedWrite)
    (a : Action CatalogBatch Unit) :
    ∃ stats, (inBatch do CatalogBatch.stageAll ws; a).runOn c =
      ((a.runOn ⟨⟨{ c.store with staged := ws }, stats⟩, !ws.isEmpty⟩).1,
        (a.runOn ⟨⟨{ c.store with staged := ws }, stats⟩, !ws.isEmpty⟩).2.drop) := by
  obtain ⟨stats, hstage⟩ := CatalogBatch.runOn_stageAll ws ⟨c, false⟩ h.faultless
  refine ⟨stats, ?_⟩
  rw [inBatch, runOn_mk, runOn_bind, hstage]
  simp only [h.staged, List.nil_append, Bool.false_or]

/-- Without what is staged, a catalog between batches is as it was. -/
theorem IsSettled.unstaged (h : c.IsSettled) : { c.store with staged := [] } = c.store := by
  rw [← h.staged]

theorem IsSettled.of_store_eq (h : c.IsSettled) {c' : Catalog} (hstore : c'.store = c.store) :
    c'.IsSettled :=
  ⟨hstore ▸ h.faultless, hstore ▸ h.staged, hstore ▸ h.sorted, hstore ▸ h.filed,
    hstore ▸ h.stored⟩

/-- A batch that is committed takes effect as a whole or not at all. -/
theorem IsSettled.commit_effect (h : c.IsSettled) (ws : List StagedWrite) :
    ∃ answer c', (inBatch do CatalogBatch.stageAll ws; CatalogBatch.commit).runOn c =
        (answer, c') ∧
      c'.IsSettled ∧ c'.store.path? = c.store.path? ∧
      ((answer = .ok () ∧ c'.store.committed = ws.foldl StagedWrite.applyTo c.store.committed) ∨
        (∃ err, answer = .error err) ∧ c'.store.committed = c.store.committed ∧ ws ≠ [] ∧
          ∃ file, c.store.document? = some file ∧ file.writable = false) := by
  obtain ⟨stats, hrun⟩ := h.runOn_inBatch ws CatalogBatch.commit
  cases ws with
  | nil =>
    -- Nothing is staged, so that there is nothing to commit.
    exact ⟨_, _, hrun, h.of_store_eq h.unstaged, congrArg CatalogStore.path? h.unstaged,
      .inl ⟨rfl, rfl⟩⟩
  | cons w rest =>
    let staged : CatalogStore := { c.store with staged := w :: rest }
    obtain ⟨stats', hcommit⟩ := CatalogBatch.runOn_commit_dirty staged stats
    rcases CatalogStore.commit_effect (s := staged) h.faultless h.sorted h.filed
      (List.cons_ne_nil w rest) with ⟨backing, hok, hfaultless, hstored, hpath⟩ |
        ⟨file, hfile, hwritable, herror⟩
    · -- The commit went through, and the staged writes are applied.
      rw [hok] at hcommit
      refine ⟨.ok (), ⟨{ staged.applied with backing }, stats'⟩, ?_, ?_, hpath, .inl ⟨rfl, rfl⟩⟩
      · rw [hrun]
        show ((CatalogBatch.commit.runOn ⟨⟨staged, stats⟩, true⟩).1,
          (CatalogBatch.commit.runOn ⟨⟨staged, stats⟩, true⟩).2.drop) = _
        rw [hcommit]
        rfl
      · exact ⟨hfaultless, rfl, StagedWrite.isSorted_foldl (w :: rest) h.sorted,
          StagedWrite.filed_foldl (w :: rest) h.filed, hstored⟩
    · -- The document could not be replaced, and the staged writes are gone.
      rw [herror] at hcommit
      refine ⟨.error (.device .host), ⟨{ c.store with staged := [] }, stats'⟩, ?_,
        h.of_store_eq h.unstaged, congrArg CatalogStore.path? h.unstaged,
        .inr ⟨⟨_, rfl⟩, rfl, List.cons_ne_nil w rest, file, hfile, hwritable⟩⟩
      rw [hrun]
      show ((CatalogBatch.commit.runOn ⟨⟨staged, stats⟩, true⟩).1,
        (CatalogBatch.commit.runOn ⟨⟨staged, stats⟩, true⟩).2.drop) = _
      rw [hcommit]
      rfl

theorem writable_of_withWritable {writable : Bool} {file : DocumentFile}
    (h : (c.withWritable writable).store.document? = some file) :
    file.writable = writable ∧ c.store.document?.isSome = true := by
  obtain ⟨⟨committed, staged, backing⟩, stats⟩ := c
  cases backing with
  | memory faults => cases h
  | document before =>
    obtain rfl := Option.some.inj h
    exact ⟨rfl, rfl⟩

theorem committed_withWritable (c : Catalog) (writable : Bool) :
    (c.withWritable writable).store.committed = c.store.committed := by
  obtain ⟨⟨committed, staged, backing⟩, stats⟩ := c
  cases backing <;> rfl

theorem path?_withWritable (c : Catalog) (writable : Bool) :
    (c.withWritable writable).store.path? = c.store.path? := by
  obtain ⟨⟨committed, staged, backing⟩, stats⟩ := c
  cases backing <;> rfl

/-- What a batch does to a catalog between batches. -/
structure BatchEffect (c : Catalog) (p : PlannedBatch) (answer : Except StoreError Unit)
    (c' : Catalog) : Prop where
  settled : c'.IsSettled
  path : c'.store.path? = c.store.path?
  entries : c'.store.committed = PlannedBatch.applyTo c.store.committed (p, answer)
  /-- Only the commit of something to a document that cannot be replaced fails. -/
  refused : ∀ err, answer = .error err →
    p.ending = .commit false ∧ p.writes ≠ [] ∧ c.store.path?.isSome = true

/-- From a catalog between batches to the next one. -/
theorem IsSettled.perform (h : c.IsSettled) (p : PlannedBatch) :
    ∃ answer c', c.perform p = (answer, c') ∧ c.BatchEffect p answer c' := by
  obtain ⟨ws, ending⟩ := p
  cases ending with
  -- A dropped batch discards what was staged.
  | drop =>
    obtain ⟨stats, hrun⟩ := h.runOn_inBatch ws (pure ())
    -- Whether or not anything was staged, the store is left as it was.
    have hstore : ((⟨⟨{ c.store with staged := ws }, stats⟩, !ws.isEmpty⟩ :
        CatalogBatch).drop).store = c.store := by
      refine Eq.trans ?_ h.unstaged
      cases ws with
      | nil => rfl
      | cons w rest => rfl
    exact ⟨.ok (), _, hrun, h.of_store_eq hstore, congrArg CatalogStore.path? hstore,
      congrArg CatalogStore.committed hstore, fun err herr => by cases herr⟩
  | commit writable =>
    obtain ⟨answer, c', hrun, hsettled, hpath, heffect⟩ :=
      (h.withWritable writable).commit_effect ws
    rw [path?_withWritable] at hpath
    rw [committed_withWritable] at heffect
    refine ⟨answer, c', hrun, hsettled, hpath, ?_, ?_⟩
    · -- The entries are those with the writes, or those from before.
      rcases heffect with ⟨rfl, hcommitted⟩ | ⟨⟨err, rfl⟩, hcommitted, -⟩
      · exact hcommitted
      · exact hcommitted
    · -- Only a document that cannot be written makes a commit fail.
      rintro err rfl
      rcases heffect with ⟨hok, -⟩ | ⟨-, -, hnonempty, file, hfile, hwritable⟩
      · cases hok
      · obtain ⟨rfl, hdocument⟩ := writable_of_withWritable hfile
        rw [hwritable]
        exact ⟨rfl, hnonempty, by simpa [CatalogStore.path?] using hdocument⟩

/-! ## Runs of batches -/

/-- What batches do to a catalog, one after the other. -/
theorem IsSettled.performAll (ps : List PlannedBatch) :
    ∀ {c : Catalog}, c.IsSettled →
      ∃ outcomes c', c.performAll ps = (outcomes, c') ∧ outcomes.map (·.1) = ps ∧
        c'.IsSettled ∧ c'.store.path? = c.store.path? ∧
        c'.store.committed = replayed c.store.committed outcomes ∧
        ∀ o ∈ outcomes, ∀ err, o.2 = .error err →
          o.1.ending = .commit false ∧ o.1.writes ≠ [] ∧ c.store.path?.isSome = true := by
  -- By induction on the batches, each of which leaves the catalog settled.
  induction ps with
  | nil => exact fun {c} h => ⟨[], c, rfl, rfl, h, rfl, rfl, by simp⟩
  | cons p rest ih =>
    intro c h
    obtain ⟨answer, c₁, hperform, heffect⟩ := h.perform p
    obtain ⟨outcomes, c', hrest, hplans, hsettled, hpath, hcommitted, hrefused⟩ :=
      ih heffect.settled
    rw [heffect.path] at hpath hrefused
    refine ⟨(p, answer) :: outcomes, c', ?_, by rw [List.map_cons, hplans], hsettled, hpath, ?_, ?_⟩
    · rw [Catalog.performAll, hperform]
      dsimp only
      rw [hrest]
    · rw [hcommitted, heffect.entries]
      rfl
    · intro o ho err herr
      rcases List.mem_cons.mp ho with rfl | ho
      · exact heffect.refused err herr
      · exact hrefused o ho err herr

/-- After any batches, the entries are those of the batches whose commit succeeded, replayed in
order, and the document gives them again when it is opened. Every other batch leaves the entries as
they were and nothing staged. -/
theorem batches_take_effect_or_leave_no_trace (h : c.IsFresh) (ps : List PlannedBatch) :
    ∃ outcomes c', c.performAll ps = (outcomes, c') ∧ outcomes.map (·.1) = ps ∧
      (∀ o ∈ outcomes, ∀ err, o.2 = .error err →
        o.1.ending = .commit false ∧ o.1.writes ≠ [] ∧ c.store.path?.isSome = true) ∧
      c'.store.committed = replayed c.store.committed outcomes ∧ c'.store.staged = [] ∧
      (∀ p, p.isCommitted (c'.perform p).1 = false →
        (c'.perform p).2.store.committed = c'.store.committed ∧
          (c'.perform p).2.store.staged = []) ∧
      c'.store.path? = c.store.path? ∧
      ∀ file, c'.store.document? = some file →
        ∃ c'', openFile file = .ok c'' ∧ c''.store.committed = c'.store.committed := by
  obtain ⟨outcomes, c', hrun, hplans, hsettled, hpath, hcommitted, hrefused⟩ :=
    h.isSettled.performAll ps
  refine ⟨outcomes, c', hrun, hplans, hrefused, hcommitted, hsettled.staged, fun p hp => ?_, hpath,
    fun file hfile => ?_⟩
  · -- The next batch is one more of the run.
    obtain ⟨answer, c'', hperform, heffect⟩ := hsettled.perform p
    rw [hperform] at hp ⊢
    refine ⟨heffect.entries.trans (if_neg ?_), heffect.settled.staged⟩
    show ¬p.isCommitted answer = true
    rw [hp]
    exact Bool.false_ne_true
  · -- The document has what was committed last.
    have hstored : (CatalogStore.openFile file).map (·.committed) = .ok c'.store.committed :=
      hsettled.stored file hfile
    cases hopen : CatalogStore.openFile file with
    | error err =>
      rw [hopen] at hstored
      cases hstored
    | ok s =>
      rw [hopen] at hstored
      exact ⟨ofStore s, by rw [Catalog.openFile, hopen]; rfl, Except.ok.inj hstored⟩

/-- The entry of a sequence that has passed the words; its name is escaped in a document. -/
def usedUp : CatalogEntry :=
  .ofSequence ⟨⟨7⟩, "used \"up\"\n\\ ü", Int64.maxValue, 1, 1, Int64.maxValue, 32, false, true,
    true⟩

/-- Batches that write the entry, fail to remove it and give up removing it. -/
def usedUpBatches : List PlannedBatch :=
  [⟨[.write usedUp], .commit true⟩, ⟨[.remove usedUp.key], .commit false⟩,
    ⟨[.remove usedUp.key], .drop⟩]

/-- Neither the removal that cannot be stored nor the one that is dropped takes effect. -/
theorem batches_take_effect_or_leave_no_trace_of_lost_removals :
    ∃ c, openFile ⟨"catalog.json", true, .missing .absent⟩ = .ok c ∧
      ∃ outcomes c', c.performAll usedUpBatches = (outcomes, c') ∧
        outcomes.map (fun o => o.1.isCommitted o.2) = [true, false, false] ∧
        c'.entries = [usedUp] ∧
        ∃ file c'', c'.store.document? = some file ∧ openFile file = .ok c'' ∧
          c''.entries = [usedUp] := by
  have hopen : openFile ⟨"catalog.json", true, .missing .absent⟩ =
    .ok (ofStore ⟨Table.empty, [], .document ⟨"catalog.json", true, .missing .absent⟩⟩) := rfl
  -- The outcomes are read off the run, and the theorem says what the document holds.
  obtain ⟨outcomes, c', hrun, -, -, -, -, -, hpath, hstored⟩ :=
    batches_take_effect_or_leave_no_trace (.document hopen) usedUpBatches
  have hanswers : outcomes.map (fun o => o.1.isCommitted o.2) = [true, false, false] :=
    (congrArg (fun r => r.1.map fun o => o.1.isCommitted o.2) hrun).symm.trans rfl
  have hentries : c'.entries = [usedUp] := (congrArg (fun r => r.2.entries) hrun).symm.trans rfl
  obtain ⟨file, hfile⟩ : ∃ file, c'.store.document? = some file := by
    cases hdocument : c'.store.document? with
    | none =>
      rw [CatalogStore.path?, hdocument] at hpath
      cases hpath
    | some file => exact ⟨file, rfl⟩
  obtain ⟨c'', hreopen, hsame⟩ := hstored file hfile
  refine ⟨_, hopen, outcomes, c', hrun, hanswers, hentries, file, c'', hfile, hreopen, ?_⟩
  rw [← hentries, entries, entries, CatalogStore.entries, CatalogStore.entries, hsame]

end Catalog

end TxnStore
