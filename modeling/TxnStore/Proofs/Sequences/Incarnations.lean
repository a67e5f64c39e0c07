import TxnStore.Proofs.Sequences.Creation

/-!
# Sequences that are lost and rebuilt

A sequence in use is lost in a crash, and another one is rebuilt from the definition in the catalog.
All the sequences that follow each other in this way hand out numbers in one direction only: each
number that was handed out lies before the cursor and before the margin in the catalog. What a crash
skips are numbers that were reserved and not handed out, fewer than were ever reserved at a time.
-/

namespace TxnStore

open TxnStore.Action

/-! ## The life of a sequence -/

/-- What can happen to a sequence. -/
inductive SequenceEvent where
  | next
  | flush (target : Int64)
  | flushWithoutMargin
  | close
  | setCacheSize (size : Int64)
  | setBelongsToTable (belongs : Bool)
  /-- The sequence is lost between two operations, and another one is rebuilt. -/
  | crash
deriving DecidableEq, Repr

/-- Whether a margin is stored that the caller names. -/
def SequenceEvent.isFlush : SequenceEvent → Bool
  | flush _ => true
  | _ => false

/-- The sequence that is rebuilt from its definition in the catalog. -/
def StoredSequence.rebuild (p : StoredSequence) : Except StoreError StoredSequence :=
  match (p.catalog.entry? p.sequence.entryKey).map CatalogEntry.object with
  | some (.sequence d) =>
    match Sequence.recover d with
    | .ok s => .ok ⟨s, p.catalog⟩
    | .error err => .error err
  | _ => .error (.sequenceNotFound p.sequence.name)

/-- A sequence with what was there before it. -/
structure SequenceLife where
  stored : StoredSequence
  /-- The numbers handed out so far, the oldest first. -/
  handed : List Int64
  /-- The most numbers that were ever reserved at a time. -/
  largest : Int

namespace SequenceLife

/-- The life of a sequence that was just made. -/
def start (p : StoredSequence) : SequenceLife := ⟨p, [], p.sequence.cacheSize.toInt⟩

/-- The life goes on with another sequence. -/
def goOn (l : SequenceLife) (p : StoredSequence) : SequenceLife :=
  { l with stored := p, largest := max l.largest p.sequence.cacheSize.toInt }

/-- The life after an event. Only a crash can end it. -/
def undergo (l : SequenceLife) : SequenceEvent → Except StoreError SequenceLife
  | .next =>
    match StoredSequence.next.runOn l.stored with
    | (.ok v, p) => .ok { l.goOn p with handed := l.handed ++ [v] }
    | (.error _, p) => .ok (l.goOn p)
  | .flush target => .ok (l.goOn ((StoredSequence.flush target).runOn l.stored).2)
  | .flushWithoutMargin => .ok (l.goOn (StoredSequence.releaseReserved.runOn l.stored).2)
  | .close => .ok (l.goOn (StoredSequence.close.runOn l.stored).2)
  | .setCacheSize size => .ok (l.goOn ((StoredSequence.setCacheSize size).runOn l.stored).2)
  | .setBelongsToTable belongs =>
    .ok (l.goOn ((StoredSequence.setBelongsToTable belongs).runOn l.stored).2)
  | .crash =>
    match l.stored.rebuild with
    | .ok p => .ok (l.goOn p)
    | .error err => .error err

/-- The life after events one after the other, up to a crash after which nothing can be rebuilt. -/
def run (l : SequenceLife) : List SequenceEvent → SequenceLife
  | [] => l
  | ev :: rest =>
    match l.undergo ev with
    | .ok l' => l'.run rest
    | .error _ => l

end SequenceLife

/-! ## Rebuilding -/

namespace IsSafe

variable {step : Int64} {p q : StoredSequence} {handed : List Int64} {m largest : Int}

theorem rebuild_eq (h : IsSafe step p handed m) :
    p.rebuild = (Sequence.recover (p.sequence.definitionAt m)).map
      fun s => StoredSequence.mk s p.catalog := by
  rw [StoredSequence.rebuild, h.stored]
  show (match Sequence.recover (p.sequence.definitionAt m) with
    | .ok s => Except.ok (StoredSequence.mk s p.catalog)
    | .error err => .error err) = _
  cases Sequence.recover (p.sequence.definitionAt m) <;> rfl

/-- What is rebuilt is the sequence of the stored definition, and all of it is stored. -/
theorem eq_of_rebuild (h : IsSafe step p handed m) (hq : p.rebuild = .ok q) :
    q =
      { sequence := { Sequence.ofDefinition (p.sequence.definitionAt m) with
          flushedMargin := some (p.sequence.definitionAt m).nextValue }
        catalog := p.catalog } := by
  rw [h.rebuild_eq, Sequence.recover] at hq
  by_cases hrecoverable : Sequence.Recoverable (p.sequence.definitionAt m)
  · rw [if_pos hrecoverable] at hq
    exact (Except.ok.inj hq).symm
  · rw [if_neg hrecoverable] at hq
    cases hq

/-- The sequence that is rebuilt stores its margins under the same attributes. -/
theorem definitionAt_of_rebuild (h : IsSafe step p handed m) (hq : p.rebuild = .ok q) (n : Int) :
    q.sequence.definitionAt n = p.sequence.definitionAt n := by
  obtain rfl := h.eq_of_rebuild hq
  have hcache : max p.sequence.cacheSize 1 = p.sequence.cacheSize := max_one_of_le h.sound.cache
  simp only [Sequence.ofDefinition, Sequence.definitionAt, Sequence.ascending, hcache]
  rfl

/-- The numbers handed out lie before the sequence that is rebuilt. -/
theorem rebuild (h : IsSafe step p handed m) (hq : p.rebuild = .ok q) :
    IsSafe step q handed q.sequence.value := by
  -- The sequence that is built is the one whose definition was stored at the margin.
  have hdefinition := h.definitionAt_of_rebuild hq
  obtain rfl := h.eq_of_rebuild hq
  obtain ⟨-, hbounded, hincrement, hmoves, hcache, -⟩ := h.sound
  obtain rfl : p.sequence.increment = step := hincrement
  let d := p.sequence.definitionAt m
  have hnear : ∃ first : Int64, along p.sequence.increment first.toInt ≤
      along p.sequence.increment d.nextValue :=
    ⟨d.start, SequenceDefinition.along_start_le_nextValue (d := d) hmoves⟩
  -- All numbers that were handed out lie before the margin, and so before its start.
  have hpassed : ∀ v ∈ handed, along p.sequence.increment v.toInt <
      along p.sequence.increment d.nextValue := fun v hv =>
    (Sequence.along_lt_nextValue_iff hmoves v m).mpr (h.passed v hv).2
  refine
    { sound := ⟨rfl, hbounded, rfl, hmoves, one_le_toInt_max _, hnear⟩
      ready := h.ready
      stored := ?_
      generation := rfl
      flushed := fun hlast => (Option.some.inj hlast).symm
      fresh := fun hnone => by cases hnone
      aligned := ⟨0, by simp [Sequence.ofDefinition]⟩
      reserved := .inl rfl
      passed := fun v hv => ⟨hpassed v hv, hpassed v hv⟩
      ordered := h.ordered }
  -- The margin is stored as it is, so that the entry need not be written again.
  rw [hdefinition]
  show p.catalog.entry? p.sequence.entryKey = _
  rw [h.stored]
  exact congrArg (some ∘ CatalogEntry.ofSequence) (Sequence.definitionAt_nextValue hmoves m).symm

/-- The cursor does not lie behind the margin. -/
theorem along_value_le_margin (h : IsSafe step p handed m) :
    along step p.sequence.value ≤ along step p.sequence.margin := by
  obtain ⟨k, hk⟩ := h.aligned
  exact h.sound.along_value_le hk

/-- A margin that the sequence has come to by itself is one to start from. -/
theorem exists_rebuild (h : IsSafe step p handed m) (ht : IsTight step p m largest) :
    ∃ q, p.rebuild = .ok q := by
  have hahead := h.along_value_le_margin
  obtain ⟨-, -, hincrement, -, -, -⟩ := h.sound
  obtain rfl : p.sequence.increment = step := hincrement
  obtain ⟨hcommitted, -, -, hvalid, hfirst⟩ := ht
  rw [hcommitted] at hahead
  have hmin := word_bounds p.sequence.minValue
  have hmax := word_bounds p.sequence.maxValue
  have hstart := toInt_saturate m
  -- The cursor lies beyond the first bound, and the margin beyond the cursor.
  have hrecoverable : Sequence.Recoverable (p.sequence.definitionAt m) := by
    unfold Sequence.Recoverable Sequence.definitionAt
    unfold along at hahead hfirst
    -- An ascending sequence is bounded above, and a descending one below.
    by_cases hup : 0 < p.sequence.increment.toInt
    · simp only [if_pos hup] at hahead hfirst hvalid ⊢
      exact ⟨by omega, hvalid⟩
    · simp only [if_neg hup] at hahead hfirst hvalid ⊢
      exact ⟨by omega, hvalid⟩
  rw [h.rebuild_eq, Sequence.recover, if_pos hrecoverable]
  exact ⟨_, rfl⟩

theorem tight_rebuild (h : IsSafe step p handed m) (ht : IsTight step p m largest)
    (hq : p.rebuild = .ok q) :
    IsTight step q q.sequence.value largest := by
  have hahead := h.along_value_le_margin
  obtain rfl := h.eq_of_rebuild hq
  obtain ⟨-, -, hincrement, hmoves, hcache, -⟩ := h.sound
  obtain rfl : p.sequence.increment = step := hincrement
  -- A sequence that is taken up reserves at least one number at a time, and no more than before.
  have hsame : (max p.sequence.cacheSize 1).toInt ≤ largest := by
    rw [max_one_of_le hcache]
    exact ht.cache
  -- The cache is at least one on both sides.
  have hone := along_step_le hmoves (Int.le_trans hcache ht.cache)
  rw [ht.committed] at hahead
  exact
    { committed := rfl
      cache := hsame
      reserve := Int.add_le_add_left hone _
      valid := ht.valid
      first := Sequence.along_le_nextValue (Int.le_trans ht.first hahead) }

end IsSafe

/-! ## What a crash skips -/

/-- A number within the bounds that the sequence would have handed out, and that the sequence
rebuilt from its margin does not. -/
def StoredSequence.Skips (p q : StoredSequence) (n : Int) : Prop :=
  (∃ i : Nat, n = p.sequence.value + p.sequence.increment.toInt * i) ∧
    p.sequence.minValue.toInt ≤ n ∧ n ≤ p.sequence.maxValue.toInt ∧
    along p.sequence.increment n < along p.sequence.increment q.sequence.value

namespace IsSafe

variable {step : Int64} {p q : StoredSequence} {handed : List Int64} {m largest : Int}

/-- What is skipped was reserved. -/
theorem skips_lt (h : IsSafe step p handed m) (ht : IsTight step p m largest)
    (hq : p.rebuild = .ok q) {i : Nat}
    (hi : p.Skips q (p.sequence.value + p.sequence.increment.toInt * i)) :
    (i : Int) + 1 < largest := by
  obtain ⟨-, hlow, hhigh, hbefore⟩ := hi
  obtain rfl := h.eq_of_rebuild hq
  obtain ⟨-, -, hincrement, hmoves, -, -⟩ := h.sound
  obtain rfl : p.sequence.increment = step := hincrement
  have hmin := word_bounds p.sequence.minValue
  have hmax := word_bounds p.sequence.maxValue
  have hword := toInt_saturate_of_word (by omega) (Int.le_trans hhigh hmax.2)
  -- A number within the bounds is a word, and so what starts at the margin skips it only if it lies
  -- before the margin itself.
  have hreserved : along p.sequence.increment (p.sequence.value + p.sequence.increment.toInt * i) <
      along p.sequence.increment m := by
    rw [← hword] at hbefore ⊢
    exact (Sequence.along_lt_nextValue_iff hmoves _ m).mp hbefore
  rw [along_steps, ← ht.committed] at hreserved
  have hreserve := ht.reserve
  have hpos := along_step_pos hmoves
  have hless : along p.sequence.increment p.sequence.increment.toInt * ((i : Int) + 1) <
      along p.sequence.increment p.sequence.increment.toInt * largest := by
    rw [Int.mul_add, Int.mul_one]
    omega
  exact Int.lt_of_mul_lt_mul_left hless (Int.le_of_lt hpos)

/-- Fewer numbers are skipped than were ever reserved at a time. -/
theorem length_skips_lt (h : IsSafe step p handed m) (ht : IsTight step p m largest)
    (hq : p.rebuild = .ok q) {ns : List Int} (hnodup : ns.Nodup) (hns : ∀ n ∈ ns, p.Skips q n) :
    (ns.length : Int) < largest := by
  have hcache := Int.le_trans h.sound.cache ht.cache
  -- The numbers that are skipped are among the next ones, one fewer than the largest cache.
  have hsubset : ns ⊆ (List.range (largest - 1).toNat).map
      fun i : Nat => p.sequence.value + p.sequence.increment.toInt * i := by
    intro n hn
    obtain ⟨i, rfl⟩ := (hns n hn).1
    have hi := h.skips_lt ht hq (hns _ hn)
    exact List.mem_map.mpr ⟨i, List.mem_range.mpr (by omega), rfl⟩
  have hlength := hnodup.length_le_of_subset hsubset
  rw [List.length_map, List.length_range] at hlength
  omega

end IsSafe

/-! ## Lives -/

namespace SequenceLife

variable {step : Int64} {l l' : SequenceLife} {m : Int}

theorem largest_goOn (h : l.stored.sequence.cacheSize.toInt ≤ l.largest) {p : StoredSequence}
    (hsame : p.sequence.cacheSize = l.stored.sequence.cacheSize) :
    (l.goOn p).largest = l.largest := by
  rw [goOn, hsame]
  exact Int.max_eq_left h

theorem goOn_keeps {a : Action StoredSequence Unit}
    (h : Keeps step l.stored l.handed m a)
    (hgoOn : Except.ok (l.goOn (a.runOn l.stored).2) = (.ok l' : Except StoreError SequenceLife)) :
    ∃ m', IsSafe step l'.stored l'.handed m' ∧
      (IsTight step l.stored m l.largest → IsTight step l'.stored m' l'.largest) := by
  obtain ⟨p', m', hrun, hsafe, htight⟩ := h
  rw [hrun] at hgoOn
  obtain rfl := Except.ok.inj hgoOn
  exact ⟨m', hsafe, htight l.largest⟩

/-- What an event keeps: the numbers handed out lie before the cursor and the margin in the catalog.
Unless the caller names the margin, no more is reserved than the largest cache at a time. -/
theorem undergo_keeps (h : IsSafe step l.stored l.handed m) {ev : SequenceEvent}
    (hundergo : l.undergo ev = .ok l') :
    ∃ m', IsSafe step l'.stored l'.handed m' ∧ (ev.isFlush = false →
      IsTight step l.stored m l.largest → IsTight step l'.stored m' l'.largest) := by
  cases ev with
  | next =>
    simp only [undergo] at hundergo
    rcases h.next with ⟨err, hrun⟩ | ⟨v, p', m', hrun, hsafe, hcache, htight⟩
    · -- An exhausted sequence stays as it is.
      rw [hrun] at hundergo
      obtain rfl := Except.ok.inj hundergo
      refine ⟨m, h, fun _ ht => ?_⟩
      rw [largest_goOn ht.cache rfl]
      exact ht
    · rw [hrun] at hundergo
      obtain rfl := Except.ok.inj hundergo
      refine ⟨m', hsafe, fun _ ht => ?_⟩
      show IsTight step p' m' (l.goOn p').largest
      rw [largest_goOn ht.cache hcache]
      exact htight _ ht
  -- A flush keeps what is safe, and not what is tight.
  | flush target =>
    -- The margin may lie far beyond what is reserved, and so nothing is claimed to be tight.
    simp only [undergo] at hundergo
    obtain ⟨p', m', hrun, hsafe⟩ := h.flush target
    rw [hrun] at hundergo
    obtain rfl := Except.ok.inj hundergo
    exact ⟨m', hsafe, fun hflush => by cases hflush⟩
  | flushWithoutMargin =>
    obtain ⟨m', hsafe, htight⟩ := goOn_keeps h.releaseReserved hundergo
    exact ⟨m', hsafe, fun _ => htight⟩
  | close =>
    obtain ⟨m', hsafe, htight⟩ := goOn_keeps h.releaseReserved hundergo
    exact ⟨m', hsafe, fun _ => htight⟩
  | setCacheSize size =>
    obtain ⟨m', hsafe, htight⟩ := goOn_keeps (h.setCacheSize size) hundergo
    exact ⟨m', hsafe, fun _ => htight⟩
  | setBelongsToTable belongs =>
    obtain ⟨m', hsafe, htight⟩ := goOn_keeps (h.setBelongsToTable belongs) hundergo
    exact ⟨m', hsafe, fun _ => htight⟩
  | crash =>
    simp only [undergo] at hundergo
    cases hq : l.stored.rebuild with
    | error err =>
      rw [hq] at hundergo
      cases hundergo
    -- What is taken up starts at the margin that was stored.
    | ok q =>
      rw [hq] at hundergo
      obtain rfl := Except.ok.inj hundergo
      refine ⟨_, h.rebuild hq, fun _ ht => ?_⟩
      have htight := h.tight_rebuild ht hq
      show IsTight step q q.sequence.value (max l.largest q.sequence.cacheSize.toInt)
      rw [Int.max_eq_left htight.cache]
      exact htight

/-- What each event keeps holds at the end of a life. -/
theorem run_keeps (h : IsSafe step l.stored l.handed m) (events : List SequenceEvent) :
    ∃ m', IsSafe step (l.run events).stored (l.run events).handed m' ∧
      ((∀ ev ∈ events, ev.isFlush = false) → IsTight step l.stored m l.largest →
        IsTight step (l.run events).stored m' (l.run events).largest) := by
  -- Life and margin vary: each event leaves another sequence that is safe.
  induction events generalizing l m with
  | nil => exact ⟨m, h, fun _ ht => ht⟩
  | cons ev rest ih =>
    unfold run
    cases hundergo : l.undergo ev with
    | error err => exact ⟨m, h, fun _ ht => ht⟩
    | ok l' =>
      obtain ⟨m₁, hsafe, htight⟩ := undergo_keeps h hundergo
      obtain ⟨m', hsafe', htight'⟩ := ih hsafe
      refine ⟨m', hsafe', fun hnone ht => ?_⟩
      have hfirst := hnone ev List.mem_cons_self
      exact htight' (fun ev' hev' => hnone ev' (List.mem_cons_of_mem _ hev')) (htight hfirst ht)

end SequenceLife

/-! ## Main result -/

/-- A sequence that is kept in the catalog and does not start over hands out numbers in the
direction of its step, also through crashes, so that it hands out none twice. While no caller stores
a margin of its own, what is lost in a crash can be rebuilt, and a crash skips fewer numbers within
the bounds than the most that were ever reserved at a time. -/
theorem Schema.createSequence_never_repeats {schema schema' : Schema} {name : String}
    {options : SequenceOptions} {s : Sequence} (hready : schema.catalog.IsReady)
    (htemporary : options.temporary = false) (hcycle : options.cycle = false)
    (hcreate : (createSequence name options).runOn schema = (.ok s, schema'))
    (events : List SequenceEvent) :
    ((SequenceLife.start ⟨s, schema'.catalog⟩).run events).handed.Pairwise
        (fun v w => if 0 < s.increment.toInt then v.toInt < w.toInt else w.toInt < v.toInt) ∧
      ((∀ ev ∈ events, ev.isFlush = false) →
        ∃ q, ((SequenceLife.start ⟨s, schema'.catalog⟩).run events).stored.rebuild = .ok q ∧
          ∀ ns : List Int, ns.Nodup →
            (∀ n ∈ ns, ((SequenceLife.start ⟨s, schema'.catalog⟩).run events).stored.Skips q n) →
            (ns.length : Int) <
              ((SequenceLife.start ⟨s, schema'.catalog⟩).run events).largest) := by
  obtain ⟨hsafe, htight⟩ := isSafe_of_createSequence hready htemporary hcycle hcreate
  obtain ⟨m, hend, hkept⟩ := SequenceLife.run_keeps
    (l := SequenceLife.start ⟨s, schema'.catalog⟩) hsafe events
  constructor
  · -- The order along the step is the order of the words, or its reverse.
    refine hend.ordered.imp fun {v w} hlt => ?_
    unfold along at hlt
    split
    · next hup =>
      rwa [if_pos hup, if_pos hup] at hlt
    · next hdown =>
      rw [if_neg hdown, if_neg hdown] at hlt
      omega
  · -- Without flushes the margin stays tight, so that the sequence can be taken up again.
    intro hnone
    have ht := hkept hnone htight
    obtain ⟨q, hq⟩ := hend.exists_rebuild ht
    exact ⟨q, hq, fun ns hnodup hns => hend.length_skips_lt ht hq hnodup hns⟩

/-- A sequence just below the last word loses what it had reserved twice, the second time beyond the
words. -/
theorem Schema.createSequence_never_repeats_of_last_words :
    let options : SequenceOptions := { SequenceOptions.basic with
      start := some (Int64.maxValue - 12), increment := some 2, cacheSize := some 3 }
    let events : List SequenceEvent :=
      [.next, .crash, .next, .setCacheSize 5, .next, .close, .crash, .next, .crash, .next]
    ∃ schema catalog s schema', openWithCache 32 .inMemory = (.ok schema, catalog) ∧
      (createSequence "rows" options).runOn schema = (.ok s, schema') ∧
      ∃ l, (SequenceLife.start ⟨s, schema'.catalog⟩).run events = l ∧
        l.handed.map (fun v => Int64.maxValue.toInt - v.toInt) = [12, 6, 4, 2] ∧ l.largest = 5 ∧
        l.handed.Pairwise (fun v w => v.toInt < w.toInt) ∧
        ∃ q, l.stored.rebuild = .ok q ∧ ∀ ns : List Int, ns.Nodup →
          (∀ n ∈ ns, l.stored.Skips q n) → (ns.length : Int) < 5 := by
  -- The schema is left opaque until its end is computed, which is done only once.
  intro options events
  obtain ⟨schema, catalog, hopen⟩ : ∃ schema catalog,
    openWithCache 32 .inMemory = (.ok schema, catalog) := ⟨_, _, rfl⟩
  have hready := isReady_openWithCache Catalog.isReady_inMemory hopen
  -- What is left of the words at each number handed out, and the most numbers reserved at a time.
  have hend : (match (createSequence "rows" options).runOn schema with
      | (.ok s, schema') =>
        let l := (SequenceLife.start ⟨s, schema'.catalog⟩).run events
        some (l.handed.map (fun v => Int64.maxValue.toInt - v.toInt), l.largest, s.increment)
      | (.error _, _) => none) = some ([12, 6, 4, 2], 5, 2) := by
    obtain rfl := Except.ok.inj (congrArg Prod.fst hopen)
    decide +kernel
  rcases hcreate : (createSequence "rows" options).runOn schema with ⟨err | s, schema'⟩
  · rw [hcreate] at hend
    cases hend
  rw [hcreate] at hend
  have hvalues := Option.some.inj hend
  simp only [Prod.mk.injEq] at hvalues
  obtain ⟨hhanded, hlargest, hincrement⟩ := hvalues
  obtain ⟨hordered, hskips⟩ := createSequence_never_repeats hready rfl rfl hcreate events
  have hup : 0 < s.increment.toInt := by
    rw [hincrement]
    decide
  simp only [if_pos hup] at hordered
  obtain ⟨q, hq, hless⟩ := hskips (by decide)
  rw [hlargest] at hless
  exact ⟨schema, catalog, s, schema', hopen, hcreate, _, rfl, hhanded, hlargest, hordered, q, hq,
    hless⟩

end TxnStore
