import TxnStore.Proofs.Catalog.Order
import TxnStore.Proofs.Sequences.CleanCloses

/-!
# What a sequence leaves alone

On a catalog that does not fail, a call of a sequence writes the entry of that sequence and no other
one, and nothing at all if the sequence is temporary. So what is true of other sequences in the same
catalog stays true.
-/

namespace TxnStore

open TxnStore.Action

/-! ## Catalogs that differ in one entry -/

/-- A catalog after one entry was written or removed. -/
structure Catalog.SameBut (key : ObjectKey) (c c' : Catalog) : Prop where
  ready : c'.IsReady
  sorted : c.store.committed.IsSorted → c'.store.committed.IsSorted
  others : ∀ k, k ≠ key → c'.store.committed.get? k = c.store.committed.get? k

namespace Catalog

variable {c c' : Catalog}

theorem SameBut.refl (key : ObjectKey) (h : c.IsReady) : c.SameBut key c :=
  ⟨h, fun hsorted => hsorted, fun _ _ => rfl⟩

/-- What a catalog that does not fail has after one write. -/
theorem SameBut.of_committed {key : ObjectKey} {e : CatalogEntry} (hready : c'.IsReady)
    (h : c'.store.committed = c.store.committed.insert key e) : c.SameBut key c' :=
  ⟨hready, fun hsorted => h ▸ hsorted.insert key e, fun _ hk => h ▸ Table.get?_insert_ne _ hk e⟩

theorem SameBut.of_erased {key : ObjectKey} (hready : c'.IsReady)
    (h : c'.store.committed = c.store.committed.erase key) : c.SameBut key c' :=
  ⟨hready, fun hsorted => h ▸ hsorted.erase key, fun _ hk => h ▸ Table.get?_erase_ne _ hk⟩

/-- Another entry is found as before. -/
theorem SameBut.entry?_eq {key k : ObjectKey} (h : c.SameBut key c') (hready : c.IsReady)
    (hk : k ≠ key) : c'.entry? k = c.entry? k := by
  rw [h.ready.entry?_eq, hready.entry?_eq, h.others k hk]

end Catalog

/-- A sequence whose own entry is left alone stays kept. -/
theorem StoredSequence.IsKept.of_sameBut {s : Sequence} {c c' : Catalog} {key : ObjectKey}
    (h : IsKept ⟨s, c⟩) (hc : c.SameBut key c') (hkey : s.entryKey ≠ key) : IsKept ⟨s, c'⟩ :=
  { ready := hc.ready
    persistent := h.persistent
    regular := h.regular
    generation := h.generation
    flushed := h.flushed
    fresh := h.fresh
    begun := h.begun
    stored := by
      obtain ⟨d, hstored, hresumes⟩ := h.stored
      exact ⟨d, (congrArg _ (hc.entry?_eq h.ready hkey)).trans hstored, hresumes⟩ }

theorem IsSafe.of_sameBut {step : Int64} {s : Sequence} {c c' : Catalog} {key : ObjectKey}
    {handed : List Int64} {m : Int} (h : IsSafe step ⟨s, c⟩ handed m) (hc : c.SameBut key c')
    (hkey : s.entryKey ≠ key) : IsSafe step ⟨s, c'⟩ handed m :=
  { sound := h.sound
    ready := hc.ready
    stored := (hc.entry?_eq h.ready hkey).trans h.stored
    generation := h.generation
    flushed := h.flushed
    fresh := h.fresh
    aligned := h.aligned
    reserved := h.reserved
    passed := h.passed
    ordered := h.ordered }

/-- What is reserved does not depend on the catalog. -/
theorem IsTight.onCatalog {step : Int64} {s : Sequence} {c : Catalog} {m largest : Int}
    (h : IsTight step ⟨s, c⟩ m largest) (c' : Catalog) : IsTight step ⟨s, c'⟩ m largest :=
  ⟨h.committed, h.cache, h.reserve, h.valid, h.first⟩

/-! ## Calls and other entries -/

/-- The sequence goes by the same name and number, and only its own entry has changed, if any. -/
structure StoredSequence.KeepsToItself (p p' : StoredSequence) : Prop where
  id : p'.sequence.id = p.sequence.id
  name : p'.sequence.name = p.sequence.name
  temporary : p'.sequence.temporary = p.sequence.temporary
  others : p.catalog.SameBut p.sequence.entryKey p'.catalog
  hidden : p.sequence.temporary = true → p'.catalog.store.committed = p.catalog.store.committed

namespace StoredSequence

variable {p : StoredSequence}

theorem KeepsToItself.refl (h : p.catalog.IsReady) : p.KeepsToItself p :=
  ⟨rfl, rfl, rfl, .refl _ h, fun _ => rfl⟩

/-- Storing a margin keeps to the entry of the sequence, whatever has become of the sequence. -/
theorem keepsToItself_flushMargin (hready : p.catalog.IsReady) {s : Sequence}
    (hid : s.id = p.sequence.id) (hname : s.name = p.sequence.name)
    (htemporary : s.temporary = p.sequence.temporary) (r : Reservation) :
    p.KeepsToItself ((flushMargin r).runOn ⟨s, p.catalog⟩).2 := by
  obtain ⟨catalog, hready', hcommitted, hrun⟩ :=
    runOn_flushMargin_ready (p := ⟨s, p.catalog⟩) hready r
  obtain ⟨_, _, _, hnotes⟩ := notes_flushMargin r ⟨s, p.catalog⟩
  rw [hrun] at hnotes ⊢
  dsimp only at hnotes ⊢
  have hkey : s.entryKey = p.sequence.entryKey := congrArg (ObjectKey.mk .sequence) hname
  unfold tableAfter at hcommitted
  -- Of the sequence only what is noted has changed, and in the catalog only its own entry.
  refine ⟨?_, ?_, ?_, ?_, fun hhidden => ?_⟩
  · rw [hnotes]
    exact hid
  · rw [hnotes]
    exact hname
  · rw [hnotes]
    exact htemporary
  · -- The entry was written, or there was nothing to write.
    split at hcommitted
    · exact .of_committed hready' (hkey ▸ hcommitted)
    · exact ⟨hready', fun hsorted => hcommitted ▸ hsorted, fun k _ => by rw [hcommitted]⟩
  · -- A temporary sequence has no entry.
    rw [hcommitted, if_neg]
    simp [htemporary.trans hhidden]

theorem keepsToItself_next (hready : p.catalog.IsReady) :
    p.KeepsToItself (next.runOn p).2 := by
  rw [runOn_next]
  -- Exhausted, a new round, or a number from the present one.
  rcases p.sequence.draw_cases with ⟨-, -, hdraw⟩ | ⟨-, -, hdraw⟩ | ⟨-, hdraw⟩
  · rw [hdraw]
    exact .refl hready
  · rw [hdraw]
    exact keepsToItself_flushMargin (s := p.sequence.wrapped) hready rfl rfl rfl _
  · rw [hdraw]
    dsimp only
    cases p.sequence.reservationAfter with
    | none => exact ⟨rfl, rfl, rfl, .refl _ hready, fun _ => rfl⟩
    | some r => exact keepsToItself_flushMargin (s := p.sequence.drawn _) hready rfl rfl rfl r

end StoredSequence

/-- Each call keeps to the entry of the sequence. -/
theorem SequenceCall.keepsToItself {p : StoredSequence} (hready : p.catalog.IsReady)
    (c : SequenceCall) : p.KeepsToItself (c.action.runOn p).2 := by
  -- Only a draw and an alteration store anything.
  cases c.effect p with
  | drawn =>
    rw [action, runOn_map]
    exact StoredSequence.keepsToItself_next hready
  | refused hrun _ =>
    rw [hrun]
    exact .refl hready
  | idle hrun =>
    rw [hrun]
    exact .refl hready
  | @altered _ f hrun halters =>
    have hsame := halters.same
    rw [hrun, runOn_numberless, StoredSequence.runOn_alter]
    refine StoredSequence.keepsToItself_flushMargin
      (s := { f p.sequence with generation := p.sequence.generation + 1 }) hready ?_ ?_ ?_ _
    · rw [hsame]
    · rw [hsame]
    · rw [hsame]

/-! ## Attributes -/

/-- What the definition of a sequence says beside where it starts. -/
def Sequence.attributes (s : Sequence) : SequenceDefinition :=
  { s.definition with start := 0, exhausted := false }

namespace Sequence

variable {s t : Sequence}

/-- The attributes are the same wherever the definition starts. -/
theorem attributes_of_definitionAt {m : Int} (h : s.definitionAt m = t.definitionAt m) :
    s.attributes = t.attributes :=
  congrArg (fun d => { d with start := 0, exhausted := false }) h

theorem Notes.attributes (h : s.Notes t) : t.attributes = s.attributes := by
  obtain ⟨_, _, _, rfl⟩ := h
  rfl

/-- What goes on with a sequence has its attributes. -/
theorem attributes_takenUp {d : SequenceDefinition} {n : Int} (h : d.Resumes s n) :
    (takenUp d).attributes = s.attributes := by
  obtain ⟨-, hid, hname, hincrement, hmin, hmax, hcache, hcycle, hbelongs, -⟩ := h
  unfold attributes definition definitionAt takenUp ofDefinition
  simp only [hid, hname, hincrement, hmin, hmax, hcache, hcycle, hbelongs]

end Sequence

namespace StoredSequence

/-- Drawing a number changes no attribute. -/
theorem attributes_next (p : StoredSequence) :
    (next.runOn p).2.sequence.attributes = p.sequence.attributes := by
  rw [runOn_next]
  rcases p.sequence.draw_cases with ⟨-, -, hdraw⟩ | ⟨-, -, hdraw⟩ | ⟨-, hdraw⟩
  · rw [hdraw]
  · rw [hdraw]
    exact (notes_flushMargin _ ⟨p.sequence.wrapped, p.catalog⟩).attributes
  · rw [hdraw]
    dsimp only
    cases p.sequence.reservationAfter with
    | none => rfl
    | some r => exact (notes_flushMargin r ⟨p.sequence.drawn _, p.catalog⟩).attributes

/-- Closing changes no attribute. -/
theorem attributes_close (p : StoredSequence) :
    (close.runOn p).2.sequence.attributes = p.sequence.attributes := by
  rw [close, runOn_releaseReserved]
  split
  · rw [runOn_alter]
    exact (notes_flushMargin _ ⟨{ p.sequence with
      margin := p.sequence.value, generation := p.sequence.generation + 1 }, p.catalog⟩).attributes
  · rfl

end StoredSequence

end TxnStore
