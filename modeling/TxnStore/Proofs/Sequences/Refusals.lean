import TxnStore.Proofs.Catalog.Faults
import TxnStore.Proofs.Sequences.Calls
import TxnStore.Proofs.Sequences.Creation

/-!
# Sequences on a catalog that may fail

Whichever calls of the catalog fail, a sequence stays regular, so that what it hands out lies within
its bounds. What can fail beside the catalog is refused before anything is touched: an exhausted
sequence and attributes that make no sequence leave the sequence and the catalog as they were.
-/

namespace TxnStore

open TxnStore.Action

/-! ## Failures of devices -/

/-- Wherever the action fails, a device has failed. -/
def Action.FailsByDevice {σ α : Type} (a : Action σ α) : Prop :=
  ∀ s err, (a.runOn s).1 = .error err → ∃ fault, err = .device fault

namespace Action.FailsByDevice

variable {σ τ α β : Type}

theorem of_ok {a : Action σ α} (h : ∀ s, ∃ x, (a.runOn s).1 = .ok x) : a.FailsByDevice := by
  intro s err herr
  obtain ⟨x, hx⟩ := h s
  rw [hx] at herr
  cases herr

theorem bind {a : Action σ α} {f : α → Action σ β} (ha : a.FailsByDevice)
    (hf : ∀ x, (f x).FailsByDevice) : (a >>= f).FailsByDevice := by
  intro s err herr
  rw [runOn_bind] at herr
  rcases hrun : a.runOn s with ⟨e | x, t⟩
  · rw [hrun] at herr
    obtain rfl := Except.error.inj herr
    exact ha s e (by rw [hrun])
  · rw [hrun] at herr
    exact hf x t err herr

theorem onPart {a : Action τ α} (ha : a.FailsByDevice) (part : σ → τ) (update : σ → τ → σ) :
    (Action.onPart part update a).FailsByDevice := fun s => ha (part s)

end Action.FailsByDevice

theorem CatalogStore.failsByDevice_stage (w : StagedWrite) (call : CatalogFaults → Bool) :
    (stage w call).FailsByDevice := by
  intro s err herr
  rw [stage, runOn_bind, runOn_get] at herr
  cases hfails : s.isSetToFail call with
  | true =>
    simp [hfails] at herr
    exact ⟨_, herr.symm⟩
  | false => simp [hfails] at herr

theorem CatalogStore.failsByDevice_commit : commit.FailsByDevice := by
  intro s err herr
  obtain ⟨committed, staged, backing⟩ := s
  rw [commit, runOn_bind, runOn_get] at herr
  -- In memory the commit itself may fail, and on disk the replacement of the document.
  cases backing with
  | memory faults =>
    cases hfails : faults.commit with
    | true =>
      simp [hfails] at herr
      exact ⟨_, herr.symm⟩
    | false => simp [hfails] at herr
  | document file =>
    cases staged with
    | nil => simp at herr
    | cons w rest =>
      cases hwritable : file.writable with
      | true => simp [replaceDocument, hwritable] at herr
      | false =>
        simp [replaceDocument, hwritable, runOn_bind] at herr
        exact ⟨_, herr.symm⟩

namespace CatalogBatch

theorem failsByDevice_write (e : CatalogEntry) : (write e).FailsByDevice :=
  ((CatalogStore.failsByDevice_stage _ _).onPart _ _).bind fun _ => .of_ok fun _ => ⟨_, rfl⟩

theorem failsByDevice_remove (key : ObjectKey) : (remove key).FailsByDevice :=
  ((CatalogStore.failsByDevice_stage _ _).onPart _ _).bind fun _ => .of_ok fun _ => ⟨_, rfl⟩

theorem failsByDevice_commit : commit.FailsByDevice := by
  -- Failures of the store are the only ones, as an empty batch commits nothing.
  refine .bind (.of_ok fun _ => ⟨_, rfl⟩) fun b => ?_
  split
  · intro s err herr
    rw [runOn_bind, runOn_attempt] at herr
    cases hrun : ((onStore CatalogStore.commit).runOn s).1 with
    | ok u => simp [hrun] at herr
    | error e =>
      simp [hrun, runOn_bind] at herr
      exact herr ▸ CatalogStore.failsByDevice_commit.onPart _ _ s e hrun
  · exact .of_ok fun _ => ⟨_, rfl⟩

end CatalogBatch

namespace Sequence

theorem failsByDevice_stage (r : Reservation) : (stage r).FailsByDevice := by
  -- Only the write into the batch may fail, and it is made for news of a lasting sequence alone.
  refine .bind (.of_ok fun _ => ⟨_, rfl⟩) ?_
  rintro ⟨s, b⟩
  dsimp only
  split
  · refine .bind (.of_ok fun _ => ⟨_, rfl⟩) fun _ => ?_
    split
    · exact ((CatalogBatch.failsByDevice_write _).onPart _ _).bind fun _ => .of_ok fun _ => ⟨_, rfl⟩
    · exact .of_ok fun _ => ⟨_, rfl⟩
  · exact .of_ok fun _ => ⟨_, rfl⟩

theorem failsByDevice_flushWith (margin : Int) : (flushWith margin).FailsByDevice := by
  refine .bind (.of_ok fun _ => ⟨_, rfl⟩) fun q => .bind (failsByDevice_stage _) fun news => ?_
  split
  · exact .of_ok fun _ => ⟨_, rfl⟩
  · exact .of_ok fun _ => ⟨_, rfl⟩

end Sequence

namespace StoredSequence

theorem failsByDevice_inBatch {α : Type} {a : Action (Sequence × CatalogBatch) α}
    (ha : a.FailsByDevice) : (inBatch a).FailsByDevice := fun _ => ha _

theorem failsByDevice_flushMargin (r : Reservation) : (flushMargin r).FailsByDevice := by
  refine failsByDevice_inBatch (.bind (Sequence.failsByDevice_stage r) fun news => ?_)
  split
  · exact (CatalogBatch.failsByDevice_commit.onPart _ _).bind fun _ => .of_ok fun _ => ⟨_, rfl⟩
  · exact .of_ok fun _ => ⟨_, rfl⟩

end StoredSequence

/-! ## What storing a margin touches -/

/-- All that the action does to the sequence is to note something about stored margins. -/
def Action.OnlyNotes {α : Type} (a : Action (Sequence × CatalogBatch) α) : Prop :=
  ∀ (s : Sequence) (b : CatalogBatch), s.Notes (a.runOn (s, b)).2.1

namespace Sequence.Notes

variable {s s' s'' : Sequence}

theorem trans (h : s.Notes s') (h' : s'.Notes s'') : s.Notes s'' := by
  obtain ⟨_, _, _, rfl⟩ := h
  obtain ⟨m, l, g, rfl⟩ := h'
  exact ⟨m, l, g, rfl⟩

theorem regular (h : s.Notes s') (hs : s.IsRegular) : s'.IsRegular := by
  obtain ⟨_, _, _, rfl⟩ := h
  exact ⟨hs.moves, hs.step, hs.cache, hs.begun⟩

theorem markFlushed (s : Sequence) (r : Reservation) : s.Notes (s.markFlushed r) := by
  unfold Sequence.markFlushed
  split
  · exact ⟨_, _, _, rfl⟩
  · exact refl s

end Sequence.Notes

namespace Action.OnlyNotes

variable {α β : Type}

theorem bind {a : Action (Sequence × CatalogBatch) α} {f : α → Action (Sequence × CatalogBatch) β}
    (ha : a.OnlyNotes) (hf : ∀ x, (f x).OnlyNotes) : (a >>= f).OnlyNotes := by
  intro s b
  have hfirst := ha s b
  rw [runOn_bind]
  rcases hrun : a.runOn (s, b) with ⟨err | x, s', b'⟩
  · rwa [hrun] at hfirst
  · rw [hrun] at hfirst
    exact hfirst.trans (hf x s' b')

theorem onSecond (a : Action CatalogBatch α) : (Action.onSecond a).OnlyNotes :=
  fun s _ => .refl s

theorem pure (x : α) : (Pure.pure x : Action (Sequence × CatalogBatch) α).OnlyNotes :=
  fun s _ => .refl s

theorem stage (r : Reservation) : (Sequence.stage r).OnlyNotes := by
  intro s b
  -- Nothing but the marks of the margin changes, whichever way the staging ends.
  cases hnews : s.shouldFlush r with
  | false =>
    rw [Sequence.runOn_stage_of_not_shouldFlush hnews]
    exact .refl s
  | true =>
    cases htemporary : s.temporary with
    | true =>
      rw [Sequence.runOn_stage_temporary hnews htemporary]
      exact ⟨_, _, _, rfl⟩
    | false =>
      rw [Sequence.runOn_stage_persistent hnews htemporary]
      exact ⟨_, _, _, rfl⟩

theorem markFlushed (r : Reservation) : Action.OnlyNotes
    (modify fun (q : Sequence × CatalogBatch) => (q.1.markFlushed r, q.2)) :=
  fun s _ => .markFlushed s r

theorem flushWith (margin : Int) : (Sequence.flushWith margin).OnlyNotes := by
  refine .bind (fun s _ => .refl s) fun q => .bind (stage _) fun news => ?_
  split
  · exact markFlushed _
  · exact pure _

end Action.OnlyNotes

namespace StoredSequence

variable {p : StoredSequence}

theorem notes_inBatch {α : Type} {a : Action (Sequence × CatalogBatch) α} (ha : a.OnlyNotes)
    (p : StoredSequence) : p.sequence.Notes ((inBatch a).runOn p).2.sequence :=
  ha p.sequence ⟨p.catalog, false⟩

theorem notes_flushMargin (r : Reservation) (p : StoredSequence) :
    p.sequence.Notes ((flushMargin r).runOn p).2.sequence := by
  refine notes_inBatch (.bind (.stage r) fun news => ?_) p
  split
  · exact .bind (.onSecond _) fun _ => .markFlushed r
  · exact .pure _

end StoredSequence

/-! ## Uses of a sequence -/

/-- A call in a batch that the caller of a sequence holds. -/
inductive BatchCall where
  | stage (w : StagedWrite)
  /-- A margin that the caller names is stored with the batch. -/
  | flush (target : Int64)

/-- What the call does to the sequence and to the batch that is open on its catalog. -/
def BatchCall.action : BatchCall → Action (Sequence × CatalogBatch) Unit
  | stage (.write e) => Action.onSecond (CatalogBatch.write e)
  | stage (.remove key) => Action.onSecond (CatalogBatch.remove key)
  | flush target => Sequence.flushWith target.toInt

/-- The calls of a batch one after the other, whether or not they fail. -/
def BatchCall.attemptAll :
    List BatchCall → Action (Sequence × CatalogBatch) (List SequenceAnswer)
  | [] => return []
  | c :: rest => do
    let answer ← c.action.numberless.attempt
    return answer :: (← attemptAll rest)

/-- A use of a sequence: a call, a margin that the caller names, or a batch of the caller, which is
committed or dropped in the end. -/
inductive SequenceUse where
  | call (c : SequenceCall)
  | flush (target : Int64)
  | batch (calls : List BatchCall) (commits : Bool)

/-- What a use answers, call by call. -/
def SequenceUse.answers : SequenceUse → Action StoredSequence (List SequenceAnswer)
  | call c => do return [← c.action.attempt]
  | flush target => do return [← (StoredSequence.flush target).numberless.attempt]
  | batch calls commits => StoredSequence.inBatch do
    let answers ← BatchCall.attemptAll calls
    if commits then
      let last ← (Action.onSecond CatalogBatch.commit).numberless.attempt
      return answers ++ [last]
    else return answers

namespace StoredSequence

/-- The sequence on its catalog with calls of the catalog set to fail. -/
def withFaults (p : StoredSequence) (faults : CatalogFaults) : StoredSequence :=
  ⟨p.sequence, p.catalog.withFaults faults⟩

/-- The sequence after uses one after the other, each while calls of the catalog are set to fail. -/
def afterUses (p : StoredSequence) (uses : List (CatalogFaults × SequenceUse)) : StoredSequence :=
  uses.foldl (fun p u => (u.2.answers.runOn (p.withFaults u.1)).2) p

end StoredSequence

/-! ## What the uses keep -/

/-- Nothing is answered but that it is done, or that a device has failed. -/
def SequenceAnswer.IsPlain (answer : SequenceAnswer) : Prop :=
  answer = .ok none ∨ ∃ fault, answer = .error (.device fault)

theorem Action.FailsByDevice.isPlain {σ : Type} {a : Action σ Unit} (ha : a.FailsByDevice) (s : σ) :
    SequenceAnswer.IsPlain (a.numberless.runOn s).1 := by
  rw [runOn_numberless]
  cases hrun : (a.runOn s).1 with
  | ok u => exact .inl rfl
  | error err =>
    obtain ⟨fault, rfl⟩ := ha s err hrun
    exact .inr ⟨fault, rfl⟩

theorem BatchCall.failsByDevice (c : BatchCall) : c.action.FailsByDevice := by
  cases c with
  | stage w =>
    cases w with
    | write e => exact (CatalogBatch.failsByDevice_write e).onPart _ _
    | remove key => exact (CatalogBatch.failsByDevice_remove key).onPart _ _
  | flush target => exact Sequence.failsByDevice_flushWith _

theorem BatchCall.onlyNotes (c : BatchCall) : c.action.OnlyNotes := by
  cases c with
  | stage w => cases w <;> exact .onSecond _
  | flush target => exact .flushWith _

/-- A write is staged or not. -/
theorem BatchCall.stage_cases (s : Sequence) (b : CatalogBatch) (w : StagedWrite) :
    ((stage w).action.runOn (s, b)).2 = (s, b.staging w) ∨
      ((BatchCall.stage w).action.runOn (s, b)).2 = (s, b) := by
  -- A staged write is taken, or refused by a batch that is finished.
  cases w with
  | write e =>
    rw [action, runOn_onSecond]
    rcases b.write_cases e with hrun | ⟨err, hrun⟩
    · exact .inl (by rw [hrun])
    · exact .inr (by rw [hrun])
  | remove key =>
    rw [action, runOn_onSecond]
    rcases b.remove_cases key with hrun | ⟨err, hrun⟩
    · exact .inl (by rw [hrun])
    · exact .inr (by rw [hrun])

/-- Each call of a batch goes on from what the one before it has left. -/
theorem BatchCall.attemptAll_cons (c : BatchCall) (rest : List BatchCall) (s : Sequence)
    (b : CatalogBatch) :
    ((attemptAll (c :: rest)).runOn (s, b)).2 =
      ((attemptAll rest).runOn (c.action.runOn (s, b)).2).2 := by
  rw [attemptAll, runOn_bind, runOn_attempt, runOn_numberless]
  dsimp only
  rw [runOn_bind]
  rcases (attemptAll rest).runOn (c.action.runOn (s, b)).2 with ⟨err | answers, q⟩
  · rfl
  · rfl

/-- The calls of a batch answer plainly, and they note something about stored margins at most. -/
theorem BatchCall.runOn_attemptAll (calls : List BatchCall) (s : Sequence) (b : CatalogBatch) :
    ∃ answers s' b', (attemptAll calls).runOn (s, b) = (.ok answers, s', b') ∧ s.Notes s' ∧
      ∀ a ∈ answers, SequenceAnswer.IsPlain a := by
  -- By induction on the calls, of which each hands on the sequence with new marks at most.
  induction calls generalizing s b with
  | nil => exact ⟨[], s, b, rfl, .refl s, fun _ ha => by cases ha⟩
  | cons c rest ih =>
    have hnotes := c.onlyNotes s b
    have hplain := c.failsByDevice.isPlain (s, b)
    obtain ⟨answers, s', b', hrun, hrest, hplains⟩ :=
      ih (c.action.runOn (s, b)).2.1 (c.action.runOn (s, b)).2.2
    let answer : SequenceAnswer := (c.action.numberless.runOn (s, b)).1
    refine ⟨answer :: answers, s', b', ?_, hnotes.trans hrest, ?_⟩
    · rw [attemptAll, runOn_bind, runOn_attempt]
      simp only [runOn_bind, runOn_numberless, hrun, runOn_pure, answer]
    · intro a ha
      rcases List.mem_cons.mp ha with rfl | ha
      · exact hplain
      · exact hplains a ha

/-- A batch that is dropped answers for its calls alone. -/
theorem SequenceUse.runOn_batch_dropped {calls : List BatchCall} {p : StoredSequence}
    {answers : List SequenceAnswer} {s : Sequence} {b : CatalogBatch}
    (hrun : (BatchCall.attemptAll calls).runOn (p.sequence, ⟨p.catalog, false⟩) =
      (.ok answers, s, b)) :
    (batch calls false).answers.runOn p = (.ok answers, ⟨s, b.drop⟩) := by
  rw [SequenceUse.answers, StoredSequence.inBatch, runOn_mk, runOn_bind, hrun]
  rfl

/-- A batch that is committed answers for its commit last. -/
theorem SequenceUse.runOn_batch_committed {calls : List BatchCall} {p : StoredSequence}
    {answers : List SequenceAnswer} {s : Sequence} {b : CatalogBatch}
    (hrun : (BatchCall.attemptAll calls).runOn (p.sequence, ⟨p.catalog, false⟩) =
      (.ok answers, s, b)) :
    (batch calls true).answers.runOn p =
      (.ok (answers ++ [(CatalogBatch.commit.runOn b).1.map fun _ => none]),
        ⟨s, (CatalogBatch.commit.runOn b).2.drop⟩) := by
  rw [SequenceUse.answers, StoredSequence.inBatch, runOn_mk, runOn_bind, hrun]
  simp only [if_true, runOn_bind, runOn_attempt, runOn_numberless, runOn_onSecond, runOn_pure]

/-- What a regular sequence may answer: nothing special, a number within its bounds, or a refusal
that has touched nothing. -/
inductive StoredSequence.Answered (p p' : StoredSequence) : SequenceAnswer → Prop where
  | plain {answer : SequenceAnswer} (hplain : answer.IsPlain) : Answered p p' answer
  | number {v : Int64} (hlow : p.sequence.minValue.toInt ≤ v.toInt)
      (hhigh : v.toInt ≤ p.sequence.maxValue.toInt) : Answered p p' (.ok (some v))
  | refused (err : StoreError) (hsame : p' = p) : Answered p p' (.error err)

namespace StoredSequence

variable {p : StoredSequence}

/-- Changing attributes keeps a sequence regular whose changed attributes are. -/
theorem alter_keeps {f : Sequence → Sequence} (h : (f p.sequence).IsRegular) :
    ((alter f).runOn p).2.sequence.IsRegular ∧
      SequenceAnswer.IsPlain ((alter f).numberless.runOn p).1 := by
  let s := { f p.sequence with generation := p.sequence.generation + 1 }
  let r : Reservation := ⟨(f p.sequence).margin, p.sequence.generation + 1⟩
  have hs : s.IsRegular := ⟨h.moves, h.step, h.cache, h.begun⟩
  have hplain := (failsByDevice_flushMargin r).isPlain ⟨s, p.catalog⟩
  rw [runOn_numberless] at hplain ⊢
  rw [runOn_alter]
  exact ⟨(notes_flushMargin r ⟨s, p.catalog⟩).regular hs, hplain⟩

/-- Drawing a number keeps a sequence regular, and the number lies within the bounds. -/
theorem next_keeps (h : p.sequence.IsRegular) :
    (next.runOn p).2.sequence.IsRegular ∧
      p.Answered (next.runOn p).2 ((some <$> next).runOn p).1 := by
  rw [runOn_map, runOn_next]
  cases hdraw : p.sequence.draw with
  | error err => exact ⟨h, .refused err rfl⟩
  | ok d =>
    -- The number lies between the bounds, and so it is a word.
    obtain ⟨hregular, hlow, hhigh⟩ := h.of_draw hdraw
    have hmin := word_bounds p.sequence.minValue
    have hmax := word_bounds p.sequence.maxValue
    have hnumber : (saturate d.number).toInt = d.number :=
      toInt_saturate_of_word (by omega) (by omega)
    have hanswered : ∀ p', p.Answered p' (.ok (some (saturate d.number))) := fun p' =>
      .number (hnumber.symm ▸ hlow) (hnumber.symm ▸ hhigh)
    dsimp only
    cases d.reservation with
    | none => exact ⟨hregular, hanswered _⟩
    | some r =>
      have hnotes := notes_flushMargin r ⟨d.sequence, p.catalog⟩
      refine ⟨hnotes.regular hregular, ?_⟩
      dsimp only
      cases hflush : ((flushMargin r).runOn ⟨d.sequence, p.catalog⟩).1 with
      | ok u => exact hanswered _
      | error err =>
        -- The number is spent, and a device has failed.
        obtain ⟨fault, rfl⟩ := failsByDevice_flushMargin r _ err hflush
        exact .plain (.inr ⟨fault, rfl⟩)

end StoredSequence

/-- A call keeps a sequence regular. -/
theorem SequenceCall.keeps {p : StoredSequence} (h : p.sequence.IsRegular) (c : SequenceCall) :
    (c.action.runOn p).2.sequence.IsRegular ∧
      p.Answered (c.action.runOn p).2 (c.action.runOn p).1 := by
  cases c.effect p with
  | drawn =>
    have hkept := StoredSequence.next_keeps h
    rw [runOn_map] at hkept
    rw [SequenceCall.action, runOn_map]
    exact hkept
  -- A refused call leaves everything as it was.
  | refused hrun hrefusal =>
    rw [hrun]
    exact ⟨h, .refused _ rfl⟩
  | idle hrun =>
    rw [hrun]
    exact ⟨h, .plain (.inl rfl)⟩
  -- An alteration may fail to be stored, which is no refusal.
  | altered hrun halters =>
    obtain ⟨hregular, hplain⟩ := StoredSequence.alter_keeps (halters.regular h)
    rw [hrun]
    refine ⟨?_, .plain hplain⟩
    rw [runOn_numberless]
    exact hregular

/-- A use keeps a sequence regular, and each of its calls is answered. -/
theorem SequenceUse.keeps {p : StoredSequence} (h : p.sequence.IsRegular) (u : SequenceUse) :
    ∃ answers p', u.answers.runOn p = (.ok answers, p') ∧ p'.sequence.IsRegular ∧
      ∀ a ∈ answers, p.Answered p' a := by
  cases u with
  | call c =>
    obtain ⟨hregular, hanswered⟩ := c.keeps h
    exact ⟨[(c.action.runOn p).1], _, rfl, hregular,
      fun a ha => List.mem_singleton.mp ha ▸ hanswered⟩
  | flush target =>
    -- A flush moves the marks of the margin and nothing else.
    have hnotes : p.sequence.Notes ((StoredSequence.flush target).runOn p).2.sequence := by
      rw [StoredSequence.runOn_flush]
      exact StoredSequence.notes_flushMargin _ p
    have hfails : (StoredSequence.flush target).FailsByDevice := by
      intro q err herr
      rw [StoredSequence.runOn_flush] at herr
      exact StoredSequence.failsByDevice_flushMargin _ q err herr
    refine ⟨[((StoredSequence.flush target).numberless.runOn p).1],
      ((StoredSequence.flush target).numberless.runOn p).2, rfl, ?_, fun a ha =>
        List.mem_singleton.mp ha ▸ .plain (hfails.isPlain p)⟩
    rw [runOn_numberless]
    exact hnotes.regular h
  -- A batch answers each of its calls, and its commit where there is one.
  | batch calls commits =>
    obtain ⟨answers, s, b, hrun, hnotes, hplain⟩ :=
      BatchCall.runOn_attemptAll calls p.sequence ⟨p.catalog, false⟩
    cases commits with
    | false =>
      exact ⟨answers, ⟨s, b.drop⟩, runOn_batch_dropped hrun, hnotes.regular h,
        fun a ha => .plain (hplain a ha)⟩
    | true =>
      have hlast : SequenceAnswer.IsPlain ((CatalogBatch.commit.runOn b).1.map fun _ => none) := by
        have hplain := CatalogBatch.failsByDevice_commit.isPlain b
        rwa [runOn_numberless] at hplain
      refine ⟨_, _, runOn_batch_committed hrun, hnotes.regular h, fun a ha => ?_⟩
      rcases List.mem_append.mp ha with ha | ha
      · exact .plain (hplain a ha)
      · exact .plain (List.mem_singleton.mp ha ▸ hlast)

/-- What each use keeps holds after any number of them. -/
theorem StoredSequence.regular_afterUses {p : StoredSequence} (h : p.sequence.IsRegular)
    (uses : List (CatalogFaults × SequenceUse)) : (p.afterUses uses).sequence.IsRegular := by
  induction uses generalizing p with
  | nil => exact h
  | cons u rest ih =>
    obtain ⟨answers, p', hrun, hregular, -⟩ := u.2.keeps (p := p.withFaults u.1) h
    refine ih ?_
    show ((u.2.answers.runOn (p.withFaults u.1)).2).sequence.IsRegular
    rw [hrun]
    exact hregular

/-! ## Main result -/

/-- A sequence that was made from options or taken up from a definition. -/
inductive Sequence.IsMade : Sequence → Prop where
  | created {id : ObjectId} {name : String} {options : SequenceOptions} {defaultCache : Int64}
      {s : Sequence} (hcreate : create id name options defaultCache = .ok s) : IsMade s
  | recovered {d : SequenceDefinition} {s : Sequence} (hrecover : recover d = .ok s) : IsMade s

/-- A sequence is regular from the start, whatever it is made from. -/
theorem Sequence.IsMade.regular {s : Sequence} (h : s.IsMade) : s.IsRegular := by
  -- Creation accepts valid attributes, and recovery checks them again.
  cases h with
  | @created id name options defaultCache s hcreate =>
    unfold create at hcreate
    split at hcreate
    · next d hdefinition =>
      obtain rfl := Except.ok.inj hcreate
      have hregular :=
        isRegular_ofDefinition (SequenceOptions.valid_of_definition hdefinition).1.recoverable
      exact ⟨hregular.moves, hregular.step, hregular.cache, hregular.begun⟩
    · cases hcreate
  | @recovered d s hrecover =>
    obtain ⟨hrecoverable, rfl⟩ := eq_of_recover hrecover
    have hregular := isRegular_ofDefinition hrecoverable
    exact ⟨hregular.moves, hregular.step, hregular.cache, hregular.begun⟩

/-- However a sequence is used, and whichever calls of its catalog fail, its attributes stay valid,
each number that it hands out lies within the bounds in force, and a use that answers that the
sequence is exhausted or that attributes are invalid leaves the sequence and the catalog as they
were. -/
theorem StoredSequence.uses_keep_attributes {s : Sequence} (hmade : s.IsMade) (catalog : Catalog)
    (uses : List (CatalogFaults × SequenceUse)) (faults : CatalogFaults) (u : SequenceUse)
    {p : StoredSequence} (hp : ((mk s catalog).afterUses uses).withFaults faults = p) :
    p.sequence.increment.toInt ≠ 0 ∧
      (p.sequence.increment.toInt.natAbs : Int) <
        p.sequence.maxValue.toInt - p.sequence.minValue.toInt ∧
      1 ≤ p.sequence.cacheSize.toInt ∧
      ∃ answers p', u.answers.runOn p = (.ok answers, p') ∧ ∀ a ∈ answers,
        (∀ v, a = .ok (some v) →
          p.sequence.minValue.toInt ≤ v.toInt ∧ v.toInt ≤ p.sequence.maxValue.toInt) ∧
        ∀ err, a = .error err → err.isSequenceRefusal = true → p' = p := by
  -- Regularity is kept by all uses, and so it holds where the last one starts.
  have hregular : p.sequence.IsRegular := by
    rw [← hp]
    exact regular_afterUses (p := ⟨s, catalog⟩) hmade.regular uses
  obtain ⟨answers, p', hrun, -, hanswered⟩ := u.keeps hregular
  refine ⟨hregular.moves, hregular.step, hregular.cache, answers, p', hrun, fun a ha => ?_⟩
  -- Each answer is plain, a number, or a refusal.
  cases hanswered a ha with
  | plain hplain =>
    rcases hplain with rfl | ⟨fault, rfl⟩
    · exact ⟨nofun, nofun⟩
    · refine ⟨nofun, fun err herr hrefusal => ?_⟩
      obtain rfl := Except.error.inj herr
      cases hrefusal
  | number hlow hhigh =>
    refine ⟨fun v hv => ?_, nofun⟩
    obtain rfl := Option.some.inj (Except.ok.inj hv)
    exact ⟨hlow, hhigh⟩
  | refused err hsame => exact ⟨nofun, fun _ _ _ => hsame⟩

/-- A sequence taken up beyond the words starts over although its catalog fails, turns round, and then
draws a number within its bounds; attributes without room for its step are refused. -/
theorem StoredSequence.uses_keep_attributes_of_turned_step :
    let d : SequenceDefinition :=
      ⟨⟨1⟩, "rows", Int64.maxValue, 5, 1, Int64.maxValue, 3, false, false, true⟩
    let catalog := ((Catalog.persist (.ofSequence d)).runOn .inMemory).2
    let works : CatalogFaults := ⟨false, false, false⟩
    let fails : CatalogFaults := ⟨false, false, true⟩
    let uses : List (CatalogFaults × SequenceUse) :=
      [(works, .call .next), (fails, .call (.setCycle true)), (fails, .call .next),
        (works, .batch [.flush 3] true), (works, .call (.restart none none (some 9) (some (-7))))]
    ∃ s, Sequence.recover d = .ok s ∧ s.IsMade ∧
      ∃ p, ((mk s catalog).afterUses uses).withFaults works = p ∧ p.sequence.increment = -7 ∧
        (∃ v p', (SequenceUse.call .next).answers.runOn p = (.ok [.ok (some v)], p') ∧ v = 6 ∧
          p.sequence.minValue.toInt ≤ v.toInt ∧ v.toInt ≤ p.sequence.maxValue.toInt) ∧
        ∃ err, (SequenceUse.call (.restart none none none (some 8))).answers.runOn p =
          (.ok [.error err], p) := by
  intro d catalog works fails uses
  let s : Sequence := { Sequence.ofDefinition d with flushedMargin := some d.nextValue }
  have hrecover : Sequence.recover d = .ok s := if_pos (by decide +kernel)
  have hmade : s.IsMade := .recovered hrecover
  let p := ((mk s catalog).afterUses uses).withFaults works
  have hturned : p.sequence.increment = -7 := by decide +kernel
  -- A call gives a single answer.
  have hanswers : ∀ c : SequenceCall, (SequenceUse.call c).answers.runOn p =
      (.ok [(c.action.runOn p).1], (c.action.runOn p).2) := by
    intro c
    rw [SequenceUse.answers, runOn_bind, runOn_attempt]
    rfl
  -- The two answers are computed, and the theorem says what they stand for.
  have hdrawn : (SequenceCall.next.action.runOn p).1.toOption = some (some 6) := by
    decide +kernel
  have hrefused : SequenceAnswer.isRefusal
      ((SequenceCall.restart none none none (some 8)).action.runOn p).1 = true := by
    decide +kernel
  have hp : ((mk s catalog).afterUses uses).withFaults works = p := rfl
  clear_value p
  refine ⟨s, hrecover, hmade, p, hp, hturned, ?_, ?_⟩
  · -- The number that is drawn lies between the bounds.
    obtain ⟨-, -, -, answers, p', hrun, hanswered⟩ :=
      uses_keep_attributes hmade catalog uses works (.call .next) hp
    have hnext := hanswers .next
    generalize SequenceCall.next.action.runOn p = x at hnext hdrawn
    rcases x with ⟨err | v, p₁⟩
    · cases hdrawn
    · obtain rfl : v = some 6 := Option.some.inj hdrawn
      obtain ⟨hlist, -⟩ := Prod.mk.inj (hnext.symm.trans hrun)
      obtain rfl := Except.ok.inj hlist
      exact ⟨6, p₁, hnext, rfl, (hanswered _ (List.mem_singleton.mpr rfl)).1 6 rfl⟩
  · -- The refused restart leaves the sequence as it was.
    obtain ⟨-, -, -, answers, p', hrun, hanswered⟩ := uses_keep_attributes hmade catalog uses works
      (.call (.restart none none none (some 8))) hp
    have hrestart := hanswers (.restart none none none (some 8))
    generalize (SequenceCall.restart none none none (some 8)).action.runOn p = x
      at hrestart hrefused
    rcases x with ⟨err | v, p₁⟩
    · obtain ⟨hlist, rfl⟩ := Prod.mk.inj (hrestart.symm.trans hrun)
      obtain rfl := Except.ok.inj hlist
      obtain rfl := (hanswered _ (List.mem_singleton.mpr rfl)).2 err rfl hrefused
      exact ⟨err, hrestart⟩
    · cases hrefused

end TxnStore
