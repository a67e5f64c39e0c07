import TxnStore.Proofs.Sequences.Attributes

/-!
# Calls of a sequence

The calls in which a sequence decides by itself which margin is stored: drawing a number, changing
attributes, starting over elsewhere, and giving up what is reserved. Those that change attributes
differ in what they change alone, and all of them store the margin anew.
-/

namespace TxnStore

open TxnStore.Action

inductive SequenceCall where
  | next
  | restart (start minValue maxValue increment : Option Int64)
  | setCycle (cycle : Bool)
  | setCacheSize (size : Int64)
  | setBelongsToTable (belongs : Bool)
  | releaseReserved
  | close
deriving DecidableEq, Repr

/-- What a call answers: a number, or that it is done. -/
abbrev SequenceAnswer := Except StoreError (Option Int64)

/-- The action, which answers that it is done. -/
def Action.numberless {σ : Type} (a : Action σ Unit) : Action σ (Option Int64) :=
  (fun _ => none) <$> a

@[simp] theorem Action.runOn_numberless {σ : Type} (a : Action σ Unit) (s : σ) :
    a.numberless.runOn s = ((a.runOn s).1.map fun _ => none, (a.runOn s).2) :=
  runOn_map _ a s

/-- What a call does. Only drawing gives a number. -/
def SequenceCall.action : SequenceCall → Action StoredSequence (Option Int64)
  | next => some <$> StoredSequence.next
  | restart start minValue maxValue increment =>
    (StoredSequence.restart start minValue maxValue increment).numberless
  | setCycle cycle => (StoredSequence.setCycle cycle).numberless
  | setCacheSize size => (StoredSequence.setCacheSize size).numberless
  | setBelongsToTable belongs => (StoredSequence.setBelongsToTable belongs).numberless
  | releaseReserved => StoredSequence.releaseReserved.numberless
  | close => StoredSequence.close.numberless

/-- Whether an error says that a sequence has no further number, or that its attributes would make
no sequence. -/
def StoreError.isSequenceRefusal : StoreError → Bool
  | sequenceExhausted _ => true
  | sequenceAttributes .. => true
  | _ => false

/-- Whether an answer is such an error. -/
def SequenceAnswer.isRefusal : SequenceAnswer → Bool
  | .ok _ => false
  | .error err => err.isSequenceRefusal

namespace Sequence

/-- The sequence that starts over at a given number under given attributes. -/
def restarted (s : Sequence) (first minValue maxValue increment : Int64) : Sequence :=
  { s with value := first.toInt, margin := first.toInt, minValue, maxValue, increment }

/-- Valid attributes make a regular sequence that starts over. -/
theorem IsRegular.restarted {s : Sequence} (h : s.IsRegular) {first min max step : Int64}
    (hvalid : AttributesValid first min max step) : (s.restarted first min max step).IsRegular := by
  obtain ⟨hlow, hhigh, -, hmoves, hstep⟩ := hvalid
  refine ⟨hmoves, hstep, h.cache, ?_⟩
  show along step (s.restarted first min max step).firstBound ≤ along step first.toInt
  rw [firstBound_eq]
  show along step (if 0 < step.toInt then min else max).toInt ≤ _
  unfold along
  split
  · exact hlow
  · omega

end Sequence

/-- A sequence that differs from another one at most in what it notes about stored margins. -/
def Sequence.Notes (s s' : Sequence) : Prop :=
  ∃ persistedMargin flushedMargin flushedGeneration,
    s' = { s with persistedMargin, flushedMargin, flushedGeneration }

theorem Sequence.Notes.refl (s : Sequence) : s.Notes s := ⟨_, _, _, rfl⟩

/-! ## What a call can do -/

/-- The attributes of a sequence are changed. What is reserved is given up, or it stays reserved
because cursor, bounds and step stay as they are. -/
structure Sequence.Alters (s s' : Sequence) : Prop where
  same : s' = { s with
    value := s'.value
    margin := s'.margin
    increment := s'.increment
    minValue := s'.minValue
    maxValue := s'.maxValue
    cacheSize := s'.cacheSize
    cycle := s'.cycle
    belongsToTable := s'.belongsToTable }
  regular : s.IsRegular → s'.IsRegular
  reserved : s'.margin = s'.value ∨ s' = { s with
    cacheSize := s'.cacheSize
    cycle := s'.cycle
    belongsToTable := s'.belongsToTable }

/-- All that a call can do: it draws a number, it is refused or finds nothing to do, or it changes
attributes. -/
inductive SequenceCall.Effect (p : StoredSequence) : SequenceCall → Prop where
  | drawn : Effect p .next
  | refused {c : SequenceCall} {err : StoreError} (hrun : c.action.runOn p = (.error err, p))
      (hrefusal : err.isSequenceRefusal = true) : Effect p c
  | idle {c : SequenceCall} (hrun : c.action.runOn p = (.ok none, p)) : Effect p c
  | altered {c : SequenceCall} {f : Sequence → Sequence}
      (hrun : c.action.runOn p = (StoredSequence.alter f).numberless.runOn p)
      (halters : p.sequence.Alters (f p.sequence)) : Effect p c

/-- The same call of two sequences that do the same with it. -/
inductive SequenceCall.Together (p q : StoredSequence) : SequenceCall → Prop where
  | drawn : Together p q .next
  | refused {c : SequenceCall} (err : StoreError) (hrun : c.action.runOn p = (.error err, p))
      (hrun' : c.action.runOn q = (.error err, q)) (hrefusal : err.isSequenceRefusal = true) :
      Together p q c
  | idle {c : SequenceCall} (hrun : c.action.runOn p = (.ok none, p))
      (hrun' : c.action.runOn q = (.ok none, q)) : Together p q c
  | altered {c : SequenceCall} {f : Sequence → Sequence}
      (hrun : c.action.runOn p = (StoredSequence.alter f).numberless.runOn p)
      (hrun' : c.action.runOn q = (StoredSequence.alter f).numberless.runOn q)
      (halters : ∀ s : Sequence, s.Alters (f s))
      (hnotes : (f p.sequence).Notes (f q.sequence)) : Together p q c

namespace SequenceCall

/-- A restart is refused and changes nothing, or it changes the attributes to valid ones. -/
theorem together_restart {p q : StoredSequence} (h : p.sequence.Notes q.sequence)
    (start minValue maxValue increment : Option Int64) :
    Together p q (restart start minValue maxValue increment) := by
  obtain ⟨s, c⟩ := p
  obtain ⟨t, c'⟩ := q
  obtain ⟨m, last, g, rfl⟩ := h
  let min := minValue.getD s.minValue
  let max := maxValue.getD s.maxValue
  let step := increment.getD s.increment
  -- Both have the same cursor to start from if none is asked for.
  cases hfirst : start.or (StoredSequence.wordOf? s.value) with
  | none =>
    refine .refused (.sequenceAttributes s.name (saturate s.value) min max step) ?_ ?_ rfl
    all_goals
      rw [action, runOn_numberless, StoredSequence.restart, runOn_bind, runOn_get]
      simp only [hfirst]
      rfl
  | some first =>
    -- The attributes are the same for both, hence so is the verdict on them.
    by_cases hvalid : AttributesValid first min max step
    · refine .altered (f := fun s => s.restarted first min max step) ?_ ?_
        (fun _ => ⟨rfl, fun h => h.restarted hvalid, .inl rfl⟩) ⟨m, last, g, rfl⟩
      all_goals
        rw [action, runOn_numberless, runOn_numberless, StoredSequence.restart, runOn_bind,
          runOn_get]
        simp only [hfirst, min, max, step] at hvalid ⊢
        rw [if_pos hvalid]
        rfl
    · refine .refused (.sequenceAttributes s.name first min max step) ?_ ?_ rfl
      all_goals
        rw [action, runOn_numberless, StoredSequence.restart, runOn_bind, runOn_get]
        simp only [hfirst, min, max, step] at hvalid ⊢
        rw [if_neg hvalid]
        rfl

/-- Giving up what is reserved does nothing where nothing is, and else sets the margin alone. -/
theorem together_releaseReserved {p q : StoredSequence} (h : p.sequence.Notes q.sequence)
    {c : SequenceCall} (hc : c.action = StoredSequence.releaseReserved.numberless) :
    Together p q c := by
  obtain ⟨s, catalog⟩ := p
  obtain ⟨t, catalog'⟩ := q
  obtain ⟨m, last, g, rfl⟩ := h
  -- Both have numbers reserved, or neither has.
  by_cases hreserved : s.margin = s.value
  · refine .idle ?_ ?_
    all_goals
      have hnothing := not_not_intro hreserved
      rw [hc, runOn_numberless, StoredSequence.runOn_releaseReserved, if_neg hnothing]
      rfl
  · refine .altered (f := fun s => { s with margin := s.value }) ?_ ?_
      (fun _ => ⟨rfl, fun h => ⟨h.moves, h.step, h.cache, h.begun⟩, .inl rfl⟩) ⟨m, last, g, rfl⟩
    all_goals
      rw [hc, runOn_numberless, runOn_numberless, StoredSequence.runOn_releaseReserved,
        if_pos hreserved]

/-- Sequences that differ in their notes about stored margins do the same with a call. -/
theorem together {p q : StoredSequence} (h : p.sequence.Notes q.sequence) (c : SequenceCall) :
    Together p q c := by
  have hnotes := h
  obtain ⟨m, last, g, hq⟩ := h
  -- Every other call alters what both have alike.
  cases c with
  | next => exact .drawn
  | restart start minValue maxValue increment => exact together_restart hnotes ..
  | setCycle cycle =>
    exact .altered (f := fun s => { s with cycle }) rfl rfl
      (fun _ => ⟨rfl, fun h => ⟨h.moves, h.step, h.cache, h.begun⟩, .inr rfl⟩)
      ⟨m, last, g, by rw [hq]⟩
  | setCacheSize size =>
    exact .altered (f := fun s => { s with cacheSize := max size 1 }) rfl rfl
      (fun _ => ⟨rfl, fun h => ⟨h.moves, h.step, one_le_toInt_max size, h.begun⟩, .inr rfl⟩)
      ⟨m, last, g, by rw [hq]⟩
  | setBelongsToTable belongs =>
    exact .altered (f := fun s => { s with belongsToTable := belongs }) rfl rfl
      (fun _ => ⟨rfl, fun h => ⟨h.moves, h.step, h.cache, h.begun⟩, .inr rfl⟩)
      ⟨m, last, g, by rw [hq]⟩
  | releaseReserved => exact together_releaseReserved hnotes rfl
  | close => exact together_releaseReserved hnotes rfl

theorem effect (p : StoredSequence) (c : SequenceCall) : Effect p c := by
  cases together (.refl p.sequence) c with
  | drawn => exact .drawn
  | refused err hrun _ hrefusal => exact .refused hrun hrefusal
  | idle hrun _ => exact .idle hrun
  | altered hrun _ halters _ => exact .altered hrun (halters _)

end SequenceCall

end TxnStore
