import TxnStore.Proofs.Catalog.BatchRuns
import TxnStore.Proofs.Sequences.LostMargins
import TxnStore.Proofs.Sequences.Refusals

/-!
# Margins in batches of the caller

A sequence marks a margin once it is committed, and a margin that does not lie behind the mark is no
news. The margin that goes into a batch of a caller is marked at once, although the caller may still
drop the batch. Then the mark is loose: the catalog does not hold the margin, and those before it
are passed over. A mark that is not loose is the margin of the entry in the catalog, whichever calls
of the catalog fail, and a margin that is passed over does not lie behind the entry.
-/

namespace TxnStore

open TxnStore.Action

/-! ## Runs that watch the mark -/

/-- The margin that counts as committed, with its generation. -/
def Sequence.mark (s : Sequence) : Option Int × Nat := (s.flushedMargin, s.flushedGeneration)

/-- Whether a use commits what it stages. The commit of a caller's batch answers last. -/
def SequenceUse.isCommitted (outcome : Except StoreError (List SequenceAnswer)) :
    SequenceUse → Bool
  | call _ => true
  | flush _ => true
  | batch _ commits =>
    match outcome with
    | .ok answers => commits && answers.getLast?.any (·.isOk)
    | .error _ => false

/-- A sequence in use. -/
structure MarkWatch where
  stored : StoredSequence
  /-- Whether the mark was set last by a batch that was not committed. -/
  loose : Bool

namespace MarkWatch

def start (p : StoredSequence) : MarkWatch := ⟨p, false⟩

/-- The watch after one more use while calls of the catalog were set to fail. -/
def use (w : MarkWatch) (u : CatalogFaults × SequenceUse) : MarkWatch :=
  let (outcome, p) := u.2.answers.runOn (w.stored.withFaults u.1)
  { stored := p
    loose :=
      if p.sequence.mark = w.stored.sequence.mark then w.loose else !u.2.isCommitted outcome }

/-- The watch after uses one after the other. -/
def run (w : MarkWatch) (uses : List (CatalogFaults × SequenceUse)) : MarkWatch := uses.foldl use w

/-- A mark that only the sequence itself sets is not loose. -/
theorem run_loose (uses : List (CatalogFaults × SequenceUse)) {w : MarkWatch}
    (hown : ∀ u ∈ uses, ∀ calls commits, u.2 ≠ .batch calls commits) (hloose : w.loose = false) :
    (w.run uses).loose = false := by
  induction uses generalizing w with
  | nil => exact hloose
  | cons u rest ih =>
    refine ih (fun v hv => hown v (List.mem_cons_of_mem _ hv)) ?_
    obtain ⟨faults, u⟩ := u
    cases u with
    | call c => simp [use, hloose, SequenceUse.isCommitted]
    | flush target => simp [use, hloose, SequenceUse.isCommitted]
    | batch calls commits => exact absurd rfl (hown _ (List.mem_cons_self ..) calls commits)

end MarkWatch

/-! ## Entries that hold a mark -/

/-- The key of the entry that a staged write is about. -/
def StagedWrite.key : StagedWrite → ObjectKey
  | write e => e.key
  | remove key => key

theorem StagedWrite.get?_applyTo_ne {w : StagedWrite} {key : ObjectKey} (h : w.key ≠ key)
    (t : Table ObjectKey CatalogEntry) : (w.applyTo t).get? key = t.get? key := by
  cases w with
  | write e => exact Table.get?_insert_ne t h.symm e
  | remove k => exact Table.get?_erase_ne t h.symm

/-- Only the sequence itself writes its entry in the use. -/
def SequenceUse.Spares (key : ObjectKey) (u : SequenceUse) : Prop :=
  ∀ calls commits, u = .batch calls commits → ∀ w, BatchCall.stage w ∈ calls → w.key ≠ key

/-- The entry starts at a margin, as far as words tell. -/
def CatalogEntry.StartsAt (e : CatalogEntry) (m : Int) : Prop :=
  ∃ d, e.object = .sequence d ∧ saturate d.nextValue = saturate m

/-- The entry that is found starts at the mark. -/
def Sequence.IsHeldBy (s : Sequence) (entry : Option CatalogEntry) : Prop :=
  ∀ m, s.flushedMargin = some m → ∃ e, entry = some e ∧ e.StartsAt m

def StoredSequence.entry? (p : StoredSequence) : Option CatalogEntry :=
  p.catalog.entry? p.sequence.entryKey

namespace Sequence

theorem isHeldBy_flushed (s : Sequence) (r : Reservation) :
    (s.flushed r).IsHeldBy (some (.ofSequence (s.definitionAt r.margin))) := by
  intro m hm
  obtain rfl : r.margin = m := Option.some.inj hm
  exact ⟨_, rfl, _, rfl, s.saturate_nextValue_definitionAt r.margin⟩

theorem IsHeldBy.of_mark {s s' : Sequence} {entry : Option CatalogEntry} (h : s.IsHeldBy entry)
    (hmark : s'.mark = s.mark) : s'.IsHeldBy entry := by
  have hsame : s'.flushedMargin = s.flushedMargin := congrArg Prod.fst hmark
  intro m hm
  exact h m (hsame ▸ hm)

/-- A sequence that goes on with the same mark and the same entry. -/
structure GoesOn (s s' : Sequence) : Prop where
  mark : s'.mark = s.mark
  name : s'.name = s.name
  temporary : s'.temporary = s.temporary
  generation : s.generation ≤ s'.generation

/-- Drawing a number does not touch the mark. The margin that it asks to store is of the generation
in which the sequence goes on. -/
theorem goesOn_draw {s : Sequence} {d : Draw} (h : s.draw = .ok d) :
    s.GoesOn d.sequence ∧ ∀ r, d.reservation = some r → r.generation = d.sequence.generation := by
  -- An exhausted sequence hands out nothing.
  rcases s.draw_cases with ⟨-, -, hrun⟩ | ⟨-, -, hrun⟩ | ⟨-, hrun⟩
  · rw [hrun] at h
    cases h
  · -- A new round starts a new generation, under which its margin is reserved.
    rw [hrun] at h
    obtain rfl := Except.ok.inj h
    exact ⟨⟨rfl, rfl, rfl, Nat.le_succ _⟩, by rintro r ⟨⟩; rfl⟩
  · -- Within a round the generation stays.
    rw [hrun] at h
    obtain rfl := Except.ok.inj h
    refine ⟨⟨rfl, rfl, rfl, Nat.le_refl _⟩, fun r hr => ?_⟩
    unfold reservationAfter at hr
    split at hr
    · obtain rfl := Option.some.inj hr
      rfl
    · cases hr

theorem Alters.goesOn {s s' : Sequence} (h : s.Alters s') :
    s.GoesOn { s' with generation := s.generation + 1 } := by
  rw [h.same]
  exact ⟨rfl, rfl, rfl, Nat.le_succ _⟩

end Sequence

/-! ## What a use does to the mark -/

/-- A sequence that is kept in its catalog and whose mark is of no later generation than its own. -/
structure StoredSequence.IsLasting (p : StoredSequence) : Prop where
  idle : p.catalog.IsIdle
  persistent : p.sequence.temporary = false
  generation : p.sequence.flushedGeneration ≤ p.sequence.generation

/-- All that a use does to the mark: mark and entry stay as they are, or the entry starts at the
mark, or the mark was set by what is not committed. -/
inductive MarkChange (p p' : StoredSequence) (committed : Bool) : Prop where
  | same (hmark : p'.sequence.mark = p.sequence.mark) (hentry : p'.entry? = p.entry?)
  | held (hheld : p'.sequence.IsHeldBy p'.entry?)
  | loosened (hmark : p'.sequence.mark ≠ p.sequence.mark) (huncommitted : committed = false)

namespace StoredSequence.IsLasting

variable {p : StoredSequence}

theorem withFaults (h : p.IsLasting) (faults : CatalogFaults) : (p.withFaults faults).IsLasting :=
  ⟨h.idle.withFaults faults, h.persistent, h.generation⟩

theorem of_goesOn (h : p.IsLasting) {s : Sequence} (hs : p.sequence.GoesOn s) :
    IsLasting ⟨s, p.catalog⟩ := by
  have hmark : s.flushedGeneration = p.sequence.flushedGeneration := congrArg Prod.snd hs.mark
  refine ⟨h.idle, hs.temporary.trans h.persistent, ?_⟩
  rw [hmark]
  exact Nat.le_trans h.generation hs.generation

end StoredSequence.IsLasting

/-- Before its own change of the mark, a use may let the sequence go on. -/
theorem MarkChange.of_goesOn {p p' : StoredSequence} {committed : Bool} {s : Sequence}
    (hs : p.sequence.GoesOn s) (h : MarkChange ⟨s, p.catalog⟩ p' committed) :
    MarkChange p p' committed := by
  have hentry : StoredSequence.entry? ⟨s, p.catalog⟩ = p.entry? := by
    unfold StoredSequence.entry? Sequence.entryKey
    rw [hs.name]
  cases h with
  | same hmark hsame => exact .same (hmark.trans hs.mark) (hsame.trans hentry)
  | held hheld => exact .held hheld
  | loosened hmark huncommitted => exact .loosened (hs.mark ▸ hmark) huncommitted

/-! ### Margins that the sequence stores -/

/-- A margin that the sequence stores by itself is marked once the entry starts there. -/
theorem StoredSequence.IsLasting.flushMargin {p : StoredSequence} (h : p.IsLasting)
    {r : Reservation} (hr : r.generation = p.sequence.generation) (committed : Bool) :
    ((StoredSequence.flushMargin r).runOn p).2.IsLasting ∧
      ((StoredSequence.flushMargin r).runOn p).2.sequence.name = p.sequence.name ∧
      MarkChange p ((StoredSequence.flushMargin r).runOn p).2 committed := by
  -- What is no news is not written, and the mark stays.
  cases hnews : p.sequence.shouldFlush r with
  | false =>
    rw [StoredSequence.runOn_flushMargin_of_not_shouldFlush hnews]
    exact ⟨h, rfl, .same rfl rfl⟩
  | true =>
    obtain ⟨catalog, hidle, ⟨hrun, -, hentry⟩ | ⟨err, hrun, hcommitted⟩⟩ :=
      StoredSequence.flushMargin_cases h.idle h.persistent hnews
    · -- The margin is in the catalog, as the mark says.
      rw [hrun]
      refine ⟨⟨hidle, h.persistent, Nat.le_of_eq hr⟩, rfl, .held ?_⟩
      have hheld := p.sequence.isHeldBy_flushed r
      rwa [← hentry] at hheld
    · -- The margin is lost: it is neither marked nor in the catalog.
      rw [hrun]
      refine ⟨⟨hidle, h.persistent, h.generation⟩, rfl, .same rfl ?_⟩
      show catalog.entry? p.sequence.entryKey = p.catalog.entry? p.sequence.entryKey
      rw [hidle.entry?_eq, hcommitted, h.idle.entry?_eq]

theorem StoredSequence.IsLasting.next {p : StoredSequence} (h : p.IsLasting) (committed : Bool) :
    (StoredSequence.next.runOn p).2.IsLasting ∧
      (StoredSequence.next.runOn p).2.sequence.name = p.sequence.name ∧
      MarkChange p (StoredSequence.next.runOn p).2 committed := by
  rw [StoredSequence.runOn_next]
  cases hdraw : p.sequence.draw with
  | error err => exact ⟨h, rfl, .same rfl rfl⟩
  | ok d =>
    -- The number is drawn before its margin is stored, so that it is gone even if that fails.
    obtain ⟨hgoesOn, hgeneration⟩ := Sequence.goesOn_draw hdraw
    have hdrawn := h.of_goesOn hgoesOn
    dsimp only
    cases hr : d.reservation with
    | none => exact ⟨hdrawn, hgoesOn.name, .of_goesOn hgoesOn (.same rfl rfl)⟩
    | some r =>
      obtain ⟨hkept, hname, hchange⟩ := hdrawn.flushMargin (hgeneration r hr) committed
      exact ⟨hkept, hname.trans hgoesOn.name, .of_goesOn hgoesOn hchange⟩

theorem SequenceCall.keeps_mark {p : StoredSequence} (h : p.IsLasting) (c : SequenceCall)
    (committed : Bool) :
    (c.action.runOn p).2.IsLasting ∧ (c.action.runOn p).2.sequence.name = p.sequence.name ∧
      MarkChange p (c.action.runOn p).2 committed := by
  -- A call draws, is refused, has nothing to do, or alters the sequence and stores it.
  cases c.effect p with
  | drawn =>
    rw [SequenceCall.action, runOn_map]
    exact h.next committed
  | refused hrun hrefusal =>
    rw [hrun]
    exact ⟨h, rfl, .same rfl rfl⟩
  | idle hrun =>
    rw [hrun]
    exact ⟨h, rfl, .same rfl rfl⟩
  | altered hrun halters =>
    rw [hrun, runOn_numberless, StoredSequence.runOn_alter]
    obtain ⟨hkept, hname, hchange⟩ :=
      (h.of_goesOn halters.goesOn).flushMargin (r := ⟨_, p.sequence.generation + 1⟩) rfl committed
    exact ⟨hkept, hname.trans halters.goesOn.name, .of_goesOn halters.goesOn hchange⟩

/-! ### Margins in a batch -/

/-- A batch in the course of a use that began with a given sequence and given entries. If the mark
was set meanwhile, the batch would make the entry start there. -/
structure CatalogBatch.IsMarkedSince (s₀ : Sequence) (t₀ : Table ObjectKey CatalogEntry)
    (q : Sequence × CatalogBatch) : Prop where
  committed : q.2.catalog.store.committed = t₀
  clean : q.2.dirty = false → q.2.catalog.store.staged = []
  persistent : q.1.temporary = false
  name : q.1.name = s₀.name
  generation : q.1.flushedGeneration ≤ q.1.generation
  held : (q.1.mark = s₀.mark ∧
      q.2.catalog.store.merged.get? s₀.entryKey = t₀.get? s₀.entryKey) ∨
    q.1.IsHeldBy (q.2.catalog.store.merged.get? s₀.entryKey)

namespace CatalogBatch

variable {s₀ : Sequence} {t₀ : Table ObjectKey CatalogEntry} {s : Sequence} {b : CatalogBatch}

theorem merged_staging (b : CatalogBatch) (w : StagedWrite) :
    (b.staging w).catalog.store.merged = w.applyTo b.catalog.store.merged :=
  List.foldl_append ..

/-- A margin of the caller is no news, or it is staged and marked, or it cannot be staged. -/
theorem flushWith_cases (b : CatalogBatch) (htemporary : s.temporary = false) (target : Int) :
    ((Sequence.flushWith target).runOn (s, b)).2 = (s, b) ∨
      ((Sequence.flushWith target).runOn (s, b)).2 =
        (s.flushed (s.reservationAt target),
          b.staging (.write (.ofSequence (s.definitionAt target)))) ∨
      ((Sequence.flushWith target).runOn (s, b)).2 = ({ s with persistedMargin := target }, b) := by
  rw [Sequence.flushWith, runOn_bind, runOn_get]
  dsimp only
  -- What is no news is not staged.
  cases hnews : s.shouldFlush (s.reservationAt target) with
  | false =>
    rw [runOn_bind, Sequence.runOn_stage_of_not_shouldFlush hnews]
    exact .inl rfl
  | true =>
    rw [runOn_bind, Sequence.runOn_stage_persistent hnews htemporary]
    have hmark := Sequence.markFlushed_of_shouldFlush hnews target
    -- The write is staged and marked, or it fails and nothing is marked.
    rcases b.write_cases (.ofSequence (s.definitionAt target)) with hwrite | ⟨err, hwrite⟩
    · refine .inr (.inl ?_)
      simp [Sequence.reservationAt, hwrite, Except.map, Sequence.flushed] at hmark ⊢
      exact hmark
    · refine .inr (.inr ?_)
      simp [Sequence.reservationAt, hwrite, Except.map]

namespace IsMarkedSince

theorem start {p : StoredSequence} (h : p.IsLasting) :
    IsMarkedSince p.sequence p.catalog.store.committed (p.sequence, ⟨p.catalog, false⟩) := by
  have hmerged : p.catalog.store.merged = p.catalog.store.committed := by
    rw [CatalogStore.merged, h.idle.staged]
    rfl
  exact ⟨rfl, fun _ => h.idle.staged, h.persistent, rfl, h.generation,
    .inl ⟨rfl, congrArg (·.get? p.sequence.entryKey) hmerged⟩⟩

/-- A call of the batch keeps it so, as long as it spares the entry. -/
theorem call (h : IsMarkedSince s₀ t₀ (s, b)) (c : BatchCall)
    (hspares : ∀ w, c = .stage w → w.key ≠ s₀.entryKey) :
    IsMarkedSince s₀ t₀ (c.action.runOn (s, b)).2 := by
  cases c with
  | stage w =>
    -- A write about another entry leaves the entry of the sequence.
    rcases BatchCall.stage_cases s b w with hrun | hrun
    · rw [hrun]
      refine ⟨h.committed, fun hclean => Bool.noConfusion hclean, h.persistent, h.name,
        h.generation, ?_⟩
      dsimp only
      rw [merged_staging, StagedWrite.get?_applyTo_ne (hspares w rfl)]
      exact h.held
    · rw [hrun]
      exact h
  | flush target =>
    -- The name stays, and so does the entry that a margin is written to.
    have hkey : s.entryKey = s₀.entryKey := congrArg (ObjectKey.mk .sequence) h.name
    rw [BatchCall.action]
    rcases flushWith_cases b h.persistent target.toInt with hrun | hrun | hrun
    · rw [hrun]
      exact h
    · rw [hrun]
      refine ⟨h.committed, fun hclean => Bool.noConfusion hclean, h.persistent, h.name,
        Nat.le_refl _, .inr ?_⟩
      dsimp only
      rw [merged_staging, ← hkey]
      -- The definition is staged last, and so it is the one that the batch would leave.
      show (s.flushed _).IsHeldBy ((b.catalog.store.merged.insert s.entryKey _).get? s.entryKey)
      rw [Table.get?_insert_self]
      exact s.isHeldBy_flushed _
    · -- What cannot be staged is not marked either.
      rw [hrun]
      exact ⟨h.committed, h.clean, h.persistent, h.name, h.generation, h.held⟩

/-- What each call keeps holds after all of them. -/
theorem attemptAll (calls : List BatchCall)
    (hspares : ∀ w, BatchCall.stage w ∈ calls → w.key ≠ s₀.entryKey)
    (h : IsMarkedSince s₀ t₀ (s, b)) :
    IsMarkedSince s₀ t₀ ((BatchCall.attemptAll calls).runOn (s, b)).2 := by
  induction calls generalizing s b with
  | nil => exact h
  | cons c rest ih =>
    have hcall := h.call c fun w hw => hspares w (hw ▸ List.mem_cons_self ..)
    have hrest := ih (fun w hw => hspares w (List.mem_cons_of_mem _ hw)) hcall
    rw [BatchCall.attemptAll_cons]
    exact hrest

end IsMarkedSince

/-- A batch that is dropped leaves the entries as they were, and nothing staged. -/
theorem drop_effect (hclean : b.dirty = false → b.catalog.store.staged = []) :
    b.drop.store.committed = b.catalog.store.committed ∧ b.drop.store.staged = [] := by
  unfold drop
  split
  · exact ⟨rfl, rfl⟩
  · next hdirty => exact ⟨rfl, hclean (by simpa using hdirty)⟩

/-- A batch that is committed puts into effect what it stages, or its commit fails and leaves the
entries as they were; nothing stays staged. -/
theorem commit_cases (hclean : b.dirty = false → b.catalog.store.staged = []) :
    ∃ c, (commit.runOn b).2.drop = c ∧ c.store.staged = [] ∧
      ((commit.runOn b).1 = .ok () ∧ c.store.committed = b.catalog.store.merged ∨
        ∃ err, (commit.runOn b).1 = .error err ∧
          c.store.committed = b.catalog.store.committed) := by
  obtain ⟨⟨store, stats⟩, dirty⟩ := b
  refine ⟨_, rfl, ?_⟩
  -- A batch that nothing was staged in has nothing to commit.
  cases dirty with
  | false =>
    have hstaged : store.staged = [] := hclean rfl
    have hmerged : store.merged = store.committed := by
      rw [CatalogStore.merged, hstaged]
      rfl
    exact ⟨hstaged, .inl ⟨rfl, hmerged.symm⟩⟩
  | true =>
    obtain ⟨stats', hcommit⟩ := CatalogBatch.runOn_commit_dirty store stats
    -- All staged writes are in the catalog then, or none of them.
    rcases store.commit_cases with ⟨backing, -, hrun⟩ | ⟨err, staged, hrun⟩
    · rw [hrun] at hcommit
      rw [hcommit]
      exact ⟨rfl, .inl ⟨rfl, rfl⟩⟩
    · rw [hrun] at hcommit
      rw [hcommit]
      exact ⟨rfl, .inr ⟨err, rfl, rfl⟩⟩

end CatalogBatch

/-! ### Uses -/

/-- The uncommitted batch of a caller leaves the entry as it was. -/
theorem MarkChange.of_uncommitted {p p' : StoredSequence}
    (hentry : p'.entry? = p.entry?) : MarkChange p p' false := by
  by_cases hmark : p'.sequence.mark = p.sequence.mark
  · exact .same hmark hentry
  · exact .loosened hmark rfl

/-- A batch of a caller, from its first call to its end. -/
theorem StoredSequence.IsLasting.batch {p : StoredSequence} (h : p.IsLasting)
    (calls : List BatchCall) (commits : Bool)
    (hspares : ∀ w, BatchCall.stage w ∈ calls → w.key ≠ p.sequence.entryKey) :
    ∃ outcome p', (SequenceUse.batch calls commits).answers.runOn p = (outcome, p') ∧
      p'.IsLasting ∧ p'.sequence.name = p.sequence.name ∧
      MarkChange p p' ((SequenceUse.batch calls commits).isCommitted outcome) := by
  obtain ⟨answers, s, b, hrun, -, -⟩ :=
    BatchCall.runOn_attemptAll calls p.sequence ⟨p.catalog, false⟩
  have hmarked := (CatalogBatch.IsMarkedSince.start h).attemptAll calls hspares
  rw [hrun] at hmarked
  have hkey : s.entryKey = p.sequence.entryKey := congrArg (ObjectKey.mk .sequence) hmarked.name
  have hfiled : Filed b.catalog.store.committed := hmarked.committed ▸ h.idle.filed
  -- Where the entries stay as they were, so does the entry of the sequence.
  have hunchanged : ∀ c : Catalog, c.IsIdle → c.store.committed = b.catalog.store.committed →
      StoredSequence.entry? ⟨s, c⟩ = p.entry? := by
    intro c hidle hcommitted
    show c.entry? s.entryKey = p.catalog.entry? p.sequence.entryKey
    rw [hidle.entry?_eq, h.idle.entry?_eq, hcommitted, hmarked.committed, hkey]
  -- The batch is dropped, or its commit succeeds, or it fails.
  cases commits with
  | false =>
    obtain ⟨hcommitted, hstaged⟩ := CatalogBatch.drop_effect hmarked.clean
    have hidle : b.drop.IsIdle := ⟨hstaged, hcommitted.symm ▸ hfiled⟩
    refine ⟨.ok answers, ⟨s, b.drop⟩, ?_, ⟨hidle, hmarked.persistent, hmarked.generation⟩,
      hmarked.name, .of_uncommitted (hunchanged _ hidle hcommitted)⟩
    exact SequenceUse.runOn_batch_dropped hrun
  | true =>
    obtain ⟨c, hdrop, hstaged, hend⟩ := CatalogBatch.commit_cases hmarked.clean
    let last : SequenceAnswer := (CatalogBatch.commit.runOn b).1.map fun _ => none
    have huse : (SequenceUse.batch calls true).answers.runOn p =
        (.ok (answers ++ [last]), ⟨s, c⟩) := by
      rw [SequenceUse.runOn_batch_committed hrun, hdrop]
    have hanswer : (SequenceUse.batch calls true).isCommitted (.ok (answers ++ [last])) =
        last.isOk := by
      simp [SequenceUse.isCommitted]
    rcases hend with ⟨hok, hcommitted⟩ | ⟨err, herror, hcommitted⟩
    · -- The entries are what the batch made of them.
      have hidle : c.IsIdle := ⟨hstaged, hcommitted.symm ▸ StagedWrite.filed_foldl _ hfiled⟩
      have hentry : StoredSequence.entry? ⟨s, c⟩ =
          b.catalog.store.merged.get? p.sequence.entryKey := by
        show c.entry? s.entryKey = _
        rw [hidle.entry?_eq, hcommitted, hkey]
      refine ⟨_, _, huse, ⟨hidle, hmarked.persistent, hmarked.generation⟩, hmarked.name, ?_⟩
      -- The batch has not set the mark, or it has staged the margin along with it.
      rcases hmarked.held with ⟨hmark, hsame⟩ | hheld
      · refine .same hmark ?_
        rw [hentry, hsame]
        exact (h.idle.entry?_eq _).symm
      · exact .held (hentry.symm ▸ hheld)
    · -- The commit fails like a drop, but the mark stays set.
      have hidle : c.IsIdle := ⟨hstaged, hcommitted.symm ▸ hfiled⟩
      refine ⟨_, _, huse, ⟨hidle, hmarked.persistent, hmarked.generation⟩, hmarked.name, ?_⟩
      have hfailed : last.isOk = false := by
        show ((CatalogBatch.commit.runOn b).1.map fun _ => none).isOk = false
        rw [herror]
        rfl
      rw [hanswer, hfailed]
      exact .of_uncommitted (hunchanged _ hidle hcommitted)

theorem SequenceUse.keeps_mark {p : StoredSequence} (h : p.IsLasting) (u : SequenceUse)
    (hspares : u.Spares p.sequence.entryKey) :
    ∃ outcome p', u.answers.runOn p = (outcome, p') ∧ p'.IsLasting ∧
      p'.sequence.name = p.sequence.name ∧ MarkChange p p' (u.isCommitted outcome) := by
  cases u with
  | call c => exact ⟨_, _, rfl, c.keeps_mark h true⟩
  | flush target =>
    refine ⟨_, ((StoredSequence.flush target).numberless.runOn p).2, rfl, ?_⟩
    rw [runOn_numberless, StoredSequence.runOn_flush]
    exact h.flushMargin rfl true
  | batch calls commits => exact h.batch calls commits (hspares calls commits rfl)

/-! ## What the uses keep -/

/-- A mark that is not loose is the margin of the entry. -/
structure MarkWatch.IsTrue (w : MarkWatch) : Prop where
  kept : w.stored.IsLasting
  held : w.loose = false → w.stored.sequence.IsHeldBy w.stored.entry?

namespace MarkWatch.IsTrue

variable {w : MarkWatch}

theorem use (h : w.IsTrue) (u : CatalogFaults × SequenceUse)
    (hspares : u.2.Spares w.stored.sequence.entryKey) :
    (w.use u).IsTrue ∧ (w.use u).stored.sequence.name = w.stored.sequence.name := by
  obtain ⟨outcome, p, hrun, hkept, hname, hchange⟩ :=
    u.2.keeps_mark (h.kept.withFaults u.1) hspares
  rw [MarkWatch.use, hrun]
  refine ⟨⟨hkept, fun hloose => ?_⟩, hname⟩
  show p.sequence.IsHeldBy p.entry?
  cases hchange with
  | same hmark hentry =>
    -- A loose mark stays loose until it is set again, so this one was not loose before.
    have hmark : p.sequence.mark = w.stored.sequence.mark := hmark
    have hentry : p.entry? = w.stored.entry? := hentry
    have hbefore : w.loose = false := by simpa [hmark] using hloose
    rw [hentry]
    exact (h.held hbefore).of_mark hmark
  -- The margin was stored just now, or the use was not committed.
  | held hheld => exact hheld
  | loosened hmark huncommitted =>
    have hmark : ¬p.sequence.mark = w.stored.sequence.mark := hmark
    simp [hmark, huncommitted] at hloose

/-- What each use keeps holds at the end of a run. -/
theorem run (uses : List (CatalogFaults × SequenceUse)) (h : w.IsTrue)
    (hspares : ∀ u ∈ uses, u.2.Spares w.stored.sequence.entryKey) : (w.run uses).IsTrue := by
  induction uses generalizing w with
  | nil => exact h
  | cons u rest ih =>
    obtain ⟨hused, hname⟩ := h.use u (hspares u (List.mem_cons_self ..))
    have hkey : (w.use u).stored.sequence.entryKey = w.stored.sequence.entryKey :=
      congrArg (ObjectKey.mk .sequence) hname
    exact ih hused fun v hv => hkey ▸ hspares v (List.mem_cons_of_mem _ hv)

/-- A margin that is passed over does not lie behind the entry. -/
theorem exists_further (h : w.IsTrue) (hloose : w.loose = false) {n : Int}
    (hskipped : w.stored.sequence.shouldFlush (w.stored.sequence.reservationAt n) = false) :
    ∃ e d, w.stored.entry? = some e ∧ e.object = .sequence d ∧
      along w.stored.sequence.increment (saturate n).toInt ≤
        along w.stored.sequence.increment (saturate d.nextValue).toInt := by
  -- A margin of the current generation is passed over only where that generation is marked.
  have hgeneration : w.stored.sequence.generation = w.stored.sequence.flushedGeneration := by
    by_contra hne
    have hlt := Nat.lt_of_le_of_ne h.kept.generation (Ne.symm hne)
    rw [Sequence.shouldFlush_of_lt hlt] at hskipped
    cases hskipped
  obtain ⟨last, hlast, hle⟩ :=
    w.stored.sequence.exists_further_of_not_shouldFlush hgeneration hskipped
  obtain ⟨e, hentry, d, hobject, hstart⟩ := h.held hloose last hlast
  refine ⟨e, d, hentry, hobject, ?_⟩
  rw [hstart]
  exact along_saturate_le hle

end MarkWatch.IsTrue

/-! ## Main result -/

/-- A sequence that is kept in a catalog: one that was just made, or one that was taken up from its
entry. -/
inductive StoredSequence.IsNew : StoredSequence → Prop where
  | created {id : ObjectId} {name : String} {options : SequenceOptions} {defaultCache : Int64}
      {s : Sequence} {catalog : Catalog} (htemporary : options.temporary = false)
      (hidle : catalog.IsIdle)
      (hcreate : Sequence.create id name options defaultCache = .ok s) : IsNew ⟨s, catalog⟩
  | recovered {e : CatalogEntry} {d : SequenceDefinition} {s : Sequence} {catalog : Catalog}
      (hidle : catalog.IsIdle) (hentry : catalog.entry? ⟨.sequence, d.name⟩ = some e)
      (hobject : e.object = .sequence d)
      (hrecover : Sequence.recover d = .ok s) : IsNew ⟨s, catalog⟩

/-- Nothing is marked when a sequence is made; when it is taken up, its entry is. -/
theorem StoredSequence.IsNew.isTrue {p : StoredSequence} (h : p.IsNew) :
    (MarkWatch.start p).IsTrue := by
  cases h with
  | created htemporary hidle hcreate =>
    obtain ⟨d, -, rfl⟩ := Sequence.eq_of_create hcreate htemporary
    exact ⟨⟨hidle, rfl, Nat.le_refl _⟩, fun _ => nofun⟩
  | recovered hidle hentry hobject hrecover =>
    obtain ⟨-, rfl⟩ := Sequence.eq_of_recover hrecover
    refine ⟨⟨hidle, rfl, Nat.le_refl _⟩, fun _ m hm => ⟨_, hentry, _, hobject, ?_⟩⟩
    exact congrArg saturate (Option.some.inj hm)

/-- Whichever calls of its catalog fail, and whether or not its callers commit their batches: unless
the mark of a sequence was set last by a batch that was not committed, the definition in the catalog
starts at the mark, and a margin that is passed over as no news does not lie behind that start. -/
theorem StoredSequence.mark_is_held_unless_loose {p : StoredSequence} (h : p.IsNew)
    (uses : List (CatalogFaults × SequenceUse))
    (hspares : ∀ u ∈ uses, u.2.Spares p.sequence.entryKey) {w : MarkWatch}
    (hw : (MarkWatch.start p).run uses = w) :
    ((∀ u ∈ uses, ∀ calls commits, u.2 ≠ .batch calls commits) → w.loose = false) ∧
      (w.loose = false → w.stored.sequence.IsHeldBy w.stored.entry? ∧
        ∀ n, w.stored.sequence.shouldFlush (w.stored.sequence.reservationAt n) = false →
          ∃ e d, w.stored.entry? = some e ∧ e.object = .sequence d ∧
            along w.stored.sequence.increment (saturate n).toInt ≤
              along w.stored.sequence.increment (saturate d.nextValue).toInt) := by
  have htrue := h.isTrue.run uses hspares
  rw [hw] at htrue
  refine ⟨fun hown => hw ▸ MarkWatch.run_loose uses hown rfl, fun hloose => ?_⟩
  exact ⟨htrue.held hloose, fun n hskipped => htrue.exists_further hloose hskipped⟩

/-- Of three batches, the second is not committed. The third one marks a margin that is committed,
and the entry starts there. -/
theorem StoredSequence.mark_is_held_unless_loose_of_lost_batch :
    let d : SequenceDefinition :=
      ⟨⟨1⟩, "rows", 1, 1, 1, Int64.maxValue, 3, false, false, false⟩
    let catalog := ((Catalog.persist (.ofSequence d)).runOn .inMemory).2
    let works : CatalogFaults := ⟨false, false, false⟩
    let fails : CatalogFaults := ⟨false, false, true⟩
    let other : CatalogEntry := .ofMap ⟨2⟩ "rows" ⟨"int64", "text"⟩
    ∃ s, Sequence.recover d = .ok s ∧ ∃ w,
      (MarkWatch.start ⟨s, catalog⟩).run
        [(works, .batch [.stage (.write other), .flush 20] true), (fails, .batch [.flush 30] true),
          (works, .call .next), (works, .batch [.flush 40] true)] = w ∧
      w.loose = false ∧ w.stored.sequence.flushedMargin = some 40 ∧
        w.stored.sequence.IsHeldBy w.stored.entry? := by
  intro d catalog works fails other
  obtain ⟨c, hpersist, hready, -⟩ := Catalog.isReady_inMemory.persist (.ofSequence d)
  have hidle : catalog.IsIdle := by
    show ((Catalog.persist (.ofSequence d)).runOn .inMemory).2.IsIdle
    rw [hpersist]
    exact hready.idle
  let s : Sequence := { Sequence.ofDefinition d with flushedMargin := some d.nextValue }
  have hrecover : Sequence.recover d = .ok s := if_pos (by decide +kernel)
  have hentry : catalog.entry? ⟨.sequence, d.name⟩ = some (.ofSequence d) := by decide +kernel
  have hnew : IsNew ⟨s, catalog⟩ := .recovered hidle hentry rfl hrecover
  let uses : List (CatalogFaults × SequenceUse) :=
    [(works, .batch [.stage (.write other), .flush 20] true), (fails, .batch [.flush 30] true),
      (works, .call .next), (works, .batch [.flush 40] true)]
  -- None of the batches writes to the entry of the sequence.
  have hspares : ∀ u ∈ uses, u.2.Spares s.entryKey := by
    intro u hu calls commits hcalls write hwrite
    simp only [uses, List.mem_cons, List.not_mem_nil, or_false] at hu
    rcases hu with rfl | rfl | rfl | rfl
    · obtain ⟨rfl, -⟩ := SequenceUse.batch.inj hcalls
      obtain rfl : write = .write other := by simpa using hwrite
      decide
    · obtain ⟨rfl, -⟩ := SequenceUse.batch.inj hcalls
      simp at hwrite
    · cases hcalls
    · obtain ⟨rfl, -⟩ := SequenceUse.batch.inj hcalls
      simp at hwrite
  generalize hw : (MarkWatch.start ⟨s, catalog⟩).run uses = w
  have hloose : w.loose = false := by
    rw [← hw]
    decide +kernel
  have hmark : w.stored.sequence.flushedMargin = some 40 := by
    rw [← hw]
    decide +kernel
  -- The last batch was committed, which the lost one before it does not change.
  obtain ⟨-, hheld⟩ := mark_is_held_unless_loose hnew uses hspares hw
  exact ⟨s, hrecover, w, hw, hloose, hmark, (hheld hloose).1⟩

/-- A margin is marked in a batch that is dropped. The definition in the catalog starts long before
the mark, and yet the next margin is passed over: the number that is handed out is handed out again
by what is taken up from the catalog. -/
theorem StoredSequence.mark_is_not_held_after_dropped_batch :
    let d : SequenceDefinition :=
      ⟨⟨1⟩, "rows", 1, 1, 1, Int64.maxValue, 3, false, false, false⟩
    let catalog := ((Catalog.persist (.ofSequence d)).runOn .inMemory).2
    let works : CatalogFaults := ⟨false, false, false⟩
    ∃ s, Sequence.recover d = .ok s ∧
      ∃ w, (MarkWatch.start ⟨s, catalog⟩).use (works, .batch [.flush 40] false) = w ∧
        w.stored.sequence.flushedMargin = some 40 ∧ w.stored.entry? = some (.ofSequence d) ∧
        d.nextValue = 1 ∧ ¬w.stored.sequence.IsHeldBy w.stored.entry? ∧
        (next.runOn w.stored).1 = .ok 1 ∧
        StoredSequence.entry? (next.runOn w.stored).2 = some (.ofSequence d) ∧
        (next.runOn ⟨s, (next.runOn w.stored).2.catalog⟩).1 = .ok 1 := by
  intro d catalog works
  let s : Sequence := { Sequence.ofDefinition d with flushedMargin := some d.nextValue }
  let w := (MarkWatch.start ⟨s, catalog⟩).use (works, .batch [.flush 40] false)
  have hrecover : Sequence.recover d = .ok s := if_pos (by decide +kernel)
  have hmark : w.stored.sequence.flushedMargin = some 40 := by decide +kernel
  have hentry : w.stored.entry? = some (.ofSequence d) := by decide +kernel
  -- The catalog has the entry that the sequence was made with, whose start is another one.
  refine ⟨s, hrecover, w, rfl, hmark, hentry, by decide +kernel, fun hheld => ?_, ?_⟩
  · obtain ⟨e, he, d', hobject, hstart⟩ := hheld 40 hmark
    obtain rfl := Option.some.inj (hentry.symm.trans he)
    obtain rfl := CatalogObject.sequence.inj hobject
    exact absurd hstart (by decide +kernel)
  · decide +kernel

end TxnStore
