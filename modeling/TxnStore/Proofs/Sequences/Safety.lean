import TxnStore.Proofs.Sequences.Margins

/-!
# Numbers that are handed out once

Each number that a sequence has handed out lies before its cursor and before the margin that the
catalog has. The operations keep this, whatever margins a caller stores. While no caller stores a
margin of its own, the catalog has exactly the end of what is reserved, and never more is reserved
than at most at a time.
-/

namespace TxnStore

open TxnStore.Action

/-! ## What the operations keep -/

/-- A sequence that is kept in the catalog and goes on in steps to its last bound. -/
structure Sequence.IsSound (step : Int64) (s : Sequence) : Prop where
  persistent : s.temporary = false
  bounded : s.cycle = false
  increment : s.increment = step
  moves : step.toInt ≠ 0
  cache : 1 ≤ s.cacheSize.toInt
  near : ∃ first : Int64, along step first.toInt ≤ along step s.value

/-- The numbers handed out lie before the cursor and before the margin in the catalog. -/
structure IsSafe (step : Int64) (p : StoredSequence) (handed : List Int64) (m : Int) : Prop where
  sound : p.sequence.IsSound step
  ready : p.catalog.IsReady
  stored : p.catalog.entry? p.sequence.entryKey = some (.ofSequence (p.sequence.definitionAt m))
  generation : p.sequence.flushedGeneration = p.sequence.generation
  flushed : ∀ {last}, p.sequence.flushedMargin = some last → last = m
  fresh : p.sequence.flushedMargin = none → p.sequence.margin = p.sequence.value ∧ handed = []
  aligned : ∃ k : Nat, p.sequence.margin = p.sequence.value + step.toInt * k
  /-- Nothing is reserved, or the catalog has the end of what is. -/
  reserved : p.sequence.margin = p.sequence.value ∨ along step p.sequence.margin ≤ along step m
  passed : ∀ v ∈ handed, along step v.toInt < along step p.sequence.value ∧
    along step v.toInt < along step m
  ordered : handed.Pairwise fun v w => along step v.toInt < along step w.toInt

/-- The catalog has exactly the end of what is reserved, and never more is reserved than the largest
cache at a time. -/
structure IsTight (step : Int64) (p : StoredSequence) (m largest : Int) : Prop where
  committed : p.sequence.margin = m
  cache : p.sequence.cacheSize.toInt ≤ largest
  reserve : along step p.sequence.margin + along step step.toInt ≤
    along step p.sequence.value + along step step.toInt * largest
  /-- The bounds and the step make a sequence that starts at the first bound. -/
  valid : AttributesValid (if 0 < step.toInt then p.sequence.minValue else p.sequence.maxValue)
    p.sequence.minValue p.sequence.maxValue step
  first : along step (if 0 < step.toInt then p.sequence.minValue else p.sequence.maxValue).toInt ≤
    along step p.sequence.value

/-- An operation leaves a sequence safe, and a tight one tight with the larger of the caches. -/
def Keeps (step : Int64) (p : StoredSequence) (handed : List Int64) (m : Int)
    (a : Action StoredSequence Unit) : Prop :=
  ∃ p' m', a.runOn p = (.ok (), p') ∧ IsSafe step p' handed m' ∧
    ∀ largest, IsTight step p m largest →
      IsTight step p' m' (max largest p'.sequence.cacheSize.toInt)

namespace IsSafe

variable {step : Int64} {p : StoredSequence} {handed : List Int64} {m : Int}

/-- A margin that is news is stored. -/
theorem flushMargin {s : Sequence} {catalog : Catalog} {r : Reservation} (hsound : s.IsSound step)
    (hready : catalog.IsReady) (hnews : s.shouldFlush r = true)
    (hgeneration : r.generation = s.generation)
    (haligned : ∃ k : Nat, s.margin = s.value + step.toInt * k)
    (hreserved : s.margin = s.value ∨ along step s.margin ≤ along step r.margin)
    (hpassed : ∀ v ∈ handed, along step v.toInt < along step s.value ∧
      along step v.toInt < along step r.margin)
    (hordered : handed.Pairwise fun v w => along step v.toInt < along step w.toInt) :
    ∃ p, (StoredSequence.flushMargin r).runOn ⟨s, catalog⟩ = (.ok (), p) ∧
      p.sequence = s.flushed r ∧ IsSafe step p handed r.margin := by
  obtain ⟨catalog', hready', hentry, hrun⟩ :=
    StoredSequence.runOn_flushMargin (p := ⟨s, catalog⟩) hready hsound.persistent hnews
  obtain ⟨hpersistent, hbounded, hincrement, hmoves, hcache, hnear⟩ := hsound
  exact ⟨_, hrun, rfl, ⟨hpersistent, hbounded, hincrement, hmoves, hcache, hnear⟩, hready', hentry,
    hgeneration, fun hlast => (Option.some.inj hlast).symm, fun hnone => (by cases hnone), haligned,
    hreserved, hpassed, hordered⟩

end IsSafe

/-! ## Drawing -/

namespace Sequence.IsSound

variable {step : Int64} {p : StoredSequence} {margin : Int}

/-- All that drawing a number can do: the sequence is exhausted, a reserved number is handed out, or
more numbers are reserved. -/
theorem next_cases (h : p.sequence.IsSound step) {k : Nat}
    (hk : p.sequence.margin = p.sequence.value + step.toInt * k) :
    (p.sequence.isPastBound = true ∧ ∃ err, StoredSequence.next.runOn p = (.error err, p)) ∨
      p.sequence.isPastBound = false ∧ ∃ v : Int64, v.toInt = p.sequence.value ∧
        if k = 0 then
          ∃ margin flushed, margin = p.sequence.value + step.toInt * p.sequence.cacheSize.toInt ∧
            (StoredSequence.flushMargin ⟨margin, p.sequence.generation⟩).runOn
              ⟨p.sequence.drawn margin, p.catalog⟩ = flushed ∧
            StoredSequence.next.runOn p = (flushed.1.map fun _ => v, flushed.2)
        else
          StoredSequence.next.runOn p =
            (.ok v, ⟨p.sequence.drawn p.sequence.margin, p.catalog⟩) := by
  obtain ⟨-, hbounded, hincrement, hmoves, -, first, hfirst⟩ := h
  -- Whether something is reserved is told by the number of steps up to the margin.
  have hused := Sequence.isUsedUp_eq hincrement hmoves hk
  obtain rfl : p.sequence.increment = step := hincrement
  rw [StoredSequence.runOn_next]
  cases hpast : p.sequence.isPastBound with
  | true =>
    left
    rw [Sequence.draw_of_isPastBound hbounded hpast]
    exact ⟨rfl, _, rfl⟩
  | false =>
    right
    refine ⟨rfl, saturate p.sequence.value, Sequence.toInt_saturate_value hfirst hpast, ?_⟩
    -- With nothing left, a block is reserved from the cursor on.
    by_cases hzero : k = 0
    · have hsame : p.sequence.margin = p.sequence.value := by
        rw [hk, hzero]
        simp
      rw [if_pos hzero, Sequence.draw_of_isUsedUp hpast (hused.trans (decide_eq_true hzero))]
      refine ⟨p.sequence.reserveFrom p.sequence.margin, _, ?_, rfl, rfl⟩
      rw [Sequence.reserveFrom, hsame]
    · rw [if_neg hzero, Sequence.draw_of_not_isUsedUp hpast (hused.trans (decide_eq_false hzero))]

variable {s : Sequence}

/-- The cursor of a sequence moves one step on. -/
theorem along_drawn (h : s.IsSound step) (margin : Int) :
    along step (s.drawn margin).value = along step s.value + along step step.toInt := by
  rw [Sequence.drawn, h.increment, along_add]

theorem drawn (h : s.IsSound step) (margin : Int) : (s.drawn margin).IsSound step := by
  have hcursor := h.along_drawn margin
  obtain ⟨hpersistent, hbounded, hincrement, hmoves, hcache, first, hfirst⟩ := h
  have hpos := along_step_pos hmoves
  exact ⟨hpersistent, hbounded, hincrement, hmoves, hcache, first, by omega⟩

/-- The margin of a sequence that has drawn a number reserved is reached from the cursor. -/
theorem aligned_drawn (h : s.IsSound step) {k : Nat}
    (hk : s.margin = s.value + step.toInt * (k + 1 : Nat)) :
    s.margin = (s.drawn s.margin).value + step.toInt * k := by
  show s.margin = s.value + s.increment.toInt + _
  rw [h.increment, hk, Int.natCast_succ, Int.mul_add, Int.mul_one]
  omega

/-- A margin that is set as far from the cursor as the sequence reserves is reached from the next
cursor. -/
theorem aligned_reserved (h : s.IsSound step)
    (hmargin : margin = s.value + step.toInt * s.cacheSize.toInt) :
    ∃ k : Nat, margin = (s.drawn margin).value + step.toInt * k := by
  have hcache := h.cache
  refine ⟨(s.cacheSize.toInt - 1).toNat, ?_⟩
  show margin = s.value + s.increment.toInt + _
  rw [h.increment, Int.toNat_of_nonneg (by omega), Int.mul_sub, Int.mul_one]
  omega

/-- A margin that is reached from the cursor does not lie behind it. -/
theorem along_value_le (h : s.IsSound step) {k : Nat} (hk : margin = s.value + step.toInt * k) :
    along step s.value ≤ along step margin := by
  have hnonneg : 0 ≤ along step step.toInt * (k : Int) :=
    Int.mul_nonneg (Int.le_of_lt (along_step_pos h.moves)) (Int.natCast_nonneg k)
  rw [hk, along_steps]
  omega

/-- A margin that is reached from the next cursor lies behind the number handed out. -/
theorem lt_of_aligned (h : s.IsSound step) {k : Nat}
    (hk : margin = (s.drawn margin).value + step.toInt * k) :
    along step s.value < along step margin := by
  have hpos := along_step_pos h.moves
  have hcursor := h.along_drawn margin
  have hahead := (h.drawn margin).along_value_le hk
  omega

end Sequence.IsSound

namespace IsSafe

variable {step : Int64} {p : StoredSequence} {handed : List Int64} {m margin : Int} {v : Int64}

/-- The numbers handed out with one more, which the cursor has just passed. -/
theorem ordered_concat (h : IsSafe step p handed m) (hv : v.toInt = p.sequence.value) :
    (handed ++ [v]).Pairwise fun v w => along step v.toInt < along step w.toInt := by
  rw [List.pairwise_append]
  refine ⟨h.ordered, List.pairwise_singleton _ v, fun w hw v' hv' => ?_⟩
  rw [List.mem_singleton.mp hv', hv]
  exact (h.passed w hw).1

theorem passed_concat (h : IsSafe step p handed m) (hv : v.toInt = p.sequence.value)
    {m' : Int} (hm' : along step p.sequence.value < along step m') :
    ∀ w ∈ handed ++ [v], along step w.toInt < along step (p.sequence.drawn margin).value ∧
      along step w.toInt < along step m' := by
  have hpos := along_step_pos h.sound.moves
  have hcursor := h.sound.along_drawn margin
  intro w hw
  rcases List.mem_append.mp hw with hold | hnew
  · have hbefore := (h.passed w hold).1
    omega
  · rw [List.mem_singleton.mp hnew, hv]
    omega

/-- A number is handed out, and the catalog has the end of what is reserved already. -/
theorem drawn (h : IsSafe step p handed m) (hv : v.toInt = p.sequence.value)
    (haligned : ∃ k : Nat, margin = (p.sequence.drawn margin).value + step.toInt * k)
    (hend : along step margin ≤ along step m) (hflushed : p.sequence.flushedMargin ≠ none) :
    IsSafe step ⟨p.sequence.drawn margin, p.catalog⟩ (handed ++ [v]) m := by
  obtain ⟨k, hk⟩ := haligned
  have hbefore := h.sound.lt_of_aligned hk
  exact ⟨h.sound.drawn margin, h.ready, h.stored, h.generation, h.flushed,
    fun hnone => absurd hnone hflushed, ⟨k, hk⟩, .inr hend, h.passed_concat hv (by omega),
    h.ordered_concat hv⟩

/-- A number is handed out, and the catalog gets the end of what is reserved. -/
theorem drawn_flushed (h : IsSafe step p handed m) (hv : v.toInt = p.sequence.value)
    (haligned : ∃ k : Nat, margin = (p.sequence.drawn margin).value + step.toInt * k)
    (hnews : (p.sequence.drawn margin).shouldFlush ⟨margin, p.sequence.generation⟩ = true) :
    ∃ p', (StoredSequence.flushMargin ⟨margin, p.sequence.generation⟩).runOn
        ⟨p.sequence.drawn margin, p.catalog⟩ = (.ok (), p') ∧
      p'.sequence = (p.sequence.drawn margin).flushed ⟨margin, p.sequence.generation⟩ ∧
      IsSafe step p' (handed ++ [v]) margin := by
  obtain ⟨k, hk⟩ := haligned
  exact flushMargin (h.sound.drawn margin) h.ready hnews rfl ⟨k, hk⟩ (.inr (Int.le_refl _))
    (h.passed_concat hv (h.sound.lt_of_aligned hk)) (h.ordered_concat hv)

/-- A number is drawn, and the catalog has the end of what is reserved then. -/
theorem tight_drawn (h : IsSafe step p handed m) {largest : Int} (ht : IsTight step p m largest)
    (catalog : Catalog) (r : Reservation)
    (hreserve : along step margin ≤ along step p.sequence.value + along step step.toInt * largest) :
    IsTight step ⟨p.sequence.drawn margin, catalog⟩ margin largest ∧
      IsTight step ⟨(p.sequence.drawn margin).flushed r, catalog⟩ margin largest := by
  have hpos := along_step_pos h.sound.moves
  have hcursor := h.sound.along_drawn margin
  have hfirst := ht.first
  -- The cursor moves by one step, and the margin lies within the largest cache behind it.
  have htight : IsTight step ⟨p.sequence.drawn margin, catalog⟩ margin largest := by
    refine ⟨rfl, ht.cache, ?_, ht.valid, ?_⟩
    · show along step margin + along step step.toInt ≤
        along step (p.sequence.drawn margin).value + _
      omega
    · show _ ≤ along step (p.sequence.drawn margin).value
      exact Int.le_trans hfirst (by omega)
  exact ⟨htight, htight.committed, htight.cache, htight.reserve, htight.valid, htight.first⟩

/-- More numbers are reserved once those that were are used up. -/
theorem drawn_usedUp (h : IsSafe step p handed m) (hv : v.toInt = p.sequence.value)
    (hmargin : margin = p.sequence.value + step.toInt * p.sequence.cacheSize.toInt)
    (hsame : p.sequence.margin = p.sequence.value) :
    ∃ p' m', (StoredSequence.flushMargin ⟨margin, p.sequence.generation⟩).runOn
        ⟨p.sequence.drawn margin, p.catalog⟩ = (.ok (), p') ∧
      IsSafe step p' (handed ++ [v]) m' ∧ p'.sequence.cacheSize = p.sequence.cacheSize ∧
      ∀ largest, IsTight step p m largest → IsTight step p' m' largest := by
  have hpos := along_step_pos h.sound.moves
  have hcache := h.sound.cache
  have haligned := h.sound.aligned_reserved hmargin
  -- The margin is news, unless a caller has stored one that lies further on.
  cases hnews : (p.sequence.drawn margin).shouldFlush ⟨margin, p.sequence.generation⟩ with
  | true =>
    obtain ⟨⟨s', catalog⟩, hflush, hsequence, hsafe⟩ := h.drawn_flushed hv haligned hnews
    obtain rfl : s' = _ := hsequence
    refine ⟨_, margin, hflush, hsafe, rfl, fun largest ht => (h.tight_drawn ht catalog _ ?_).2⟩
    have hmul := Int.mul_le_mul_of_nonneg_left ht.cache (Int.le_of_lt hpos)
    rw [hmargin, along_add, along_mul]
    omega
  | false =>
    have hnothing := StoredSequence.runOn_flushMargin_of_not_shouldFlush
      (p := ⟨p.sequence.drawn margin, p.catalog⟩) hnews
    -- The catalog has a margin that lies at least as far on.
    obtain ⟨last, hlast, hfurther⟩ :=
      (p.sequence.drawn margin).exists_further_of_not_shouldFlush h.generation.symm hnews
    have hincrement : (p.sequence.drawn margin).increment = step := h.sound.increment
    rw [hincrement] at hfurther
    have hlast : p.sequence.flushedMargin = some last := hlast
    obtain rfl := h.flushed hlast
    refine ⟨_, last, hnothing, h.drawn hv haligned (by omega) (by simp [hlast]), rfl,
      fun largest ht => ?_⟩
    -- With a tight margin this cannot be, since the new margin lies further on than the one before.
    have hone := along_step_le h.sound.moves hcache
    have hback := ht.committed
    rw [hsame] at hback
    rw [hmargin, along_add, along_mul, ← hback] at hfurther
    omega

/-- A number is handed out once: it lies before the cursor and before the margin from then on. -/
theorem next (h : IsSafe step p handed m) :
    (∃ err, StoredSequence.next.runOn p = (.error err, p)) ∨
      ∃ v p' m', StoredSequence.next.runOn p = (.ok v, p') ∧ IsSafe step p' (handed ++ [v]) m' ∧
        p'.sequence.cacheSize = p.sequence.cacheSize ∧
        ∀ largest, IsTight step p m largest → IsTight step p' m' largest := by
  obtain ⟨k, hk⟩ := h.aligned
  rcases h.sound.next_cases hk with ⟨-, herr⟩ | ⟨-, v, hv, hrun⟩
  · exact .inl herr
  right
  -- Nothing is left, and the margin is stored before the number is given.
  cases k with
  | zero =>
    obtain ⟨margin, flushed, hmargin, hflush, hrun⟩ := hrun
    obtain ⟨p', m', hflush', hafter⟩ := h.drawn_usedUp hv hmargin (by rw [hk]; simp)
    obtain rfl : flushed = (.ok (), p') := hflush.symm.trans hflush'
    exact ⟨v, p', m', hrun, hafter⟩
  | succ k =>
    have hone := along_step_le h.sound.moves (k := (k + 1 : Nat)) (by omega)
    have hpos := along_step_pos h.sound.moves
    have hmargin : along step p.sequence.margin =
        along step p.sequence.value + along step step.toInt * (k + 1 : Nat) := by
      rw [hk, along_steps]
    -- Something is reserved, so that the catalog has the end of it.
    have hne : p.sequence.margin ≠ p.sequence.value := by
      intro hsame
      rw [hsame] at hmargin
      omega
    have hend : along step p.sequence.margin ≤ along step m := h.reserved.resolve_left hne
    have haligned := h.sound.aligned_drawn hk
    refine ⟨v, _, m, hrun, h.drawn hv ⟨k, haligned⟩ hend fun hnone => hne (h.fresh hnone).1, rfl,
      fun largest ht => ?_⟩
    have hreserve := ht.reserve
    have htight : IsTight step ⟨p.sequence.drawn p.sequence.margin, p.catalog⟩ p.sequence.margin
        largest := (h.tight_drawn ht p.catalog ⟨0, 0⟩ (by omega)).1
    exact ht.committed ▸ htight

/-! ## Other operations -/

/-- An operation that starts a new generation stores the margin anew. -/
theorem alter (h : IsSafe step p handed m) {f : Sequence → Sequence} {cacheSize : Int64}
    {belongsToTable : Bool}
    (hf : f p.sequence = { p.sequence with margin, cacheSize, belongsToTable })
    (hmargin : margin = p.sequence.margin ∨ margin = p.sequence.value)
    (hcache : 1 ≤ cacheSize.toInt) : Keeps step p handed m (StoredSequence.alter f) := by
  have hpos := along_step_pos h.sound.moves
  -- The new margin is the old one, or the cursor itself.
  have haligned : ∃ k : Nat, margin = p.sequence.value + step.toInt * k := by
    rcases hmargin with rfl | rfl
    · exact h.aligned
    · exact ⟨0, by simp⟩
  -- The margin does not fall behind the cursor, behind which all numbers lie that were handed out.
  have hahead : along step p.sequence.value ≤ along step margin := by
    obtain ⟨k, hk⟩ := haligned
    exact h.sound.along_value_le hk
  obtain ⟨hpersistent, hbounded, hincrement, hmoves, -, hnear⟩ := h.sound
  let s' : Sequence := { p.sequence with
    margin, cacheSize, belongsToTable, generation := p.sequence.generation + 1 }
  let r : Reservation := ⟨margin, p.sequence.generation + 1⟩
  -- A new generation is news whatever its margin is.
  have hnews : s'.shouldFlush r = true := by
    apply Sequence.shouldFlush_of_lt
    show p.sequence.flushedGeneration < p.sequence.generation + 1
    rw [h.generation]
    exact Nat.lt_succ_self _
  have hpassed : ∀ v ∈ handed, along step v.toInt < along step p.sequence.value ∧
      along step v.toInt < along step margin := fun v hv =>
    ⟨(h.passed v hv).1, Int.lt_of_lt_of_le (h.passed v hv).1 hahead⟩
  have hsound : s'.IsSound step := ⟨hpersistent, hbounded, hincrement, hmoves, hcache, hnear⟩
  obtain ⟨⟨s'', catalog⟩, hflush, hsequence, hsafe⟩ := flushMargin hsound h.ready hnews rfl haligned
    (.inr (Int.le_refl _)) hpassed h.ordered
  obtain rfl : s'' = s'.flushed r := hsequence
  refine ⟨_, margin, ?_, hsafe, fun largest ht =>
    ⟨rfl, Int.le_max_right _ _, ?_, ht.valid, ht.first⟩⟩
  · rw [StoredSequence.runOn_alter, hf]
    exact hflush
  · show along step margin + along step step.toInt ≤
      along step p.sequence.value + along step step.toInt * max largest cacheSize.toInt
    have hle : largest ≤ max largest cacheSize.toInt := Int.le_max_left _ _
    have hmul := Int.mul_le_mul_of_nonneg_left hle (Int.le_of_lt hpos)
    have hreserve := ht.reserve
    -- What is released shortens the way to the margin, and what is kept leaves it.
    rcases hmargin with rfl | rfl
    · omega
    · have hone : 1 ≤ max largest cacheSize.toInt := Int.le_trans hcache (Int.le_max_right _ _)
      have hstep := along_step_le hmoves hone
      omega

/-- A margin that the caller names is stored if it is news. -/
theorem flush (h : IsSafe step p handed m) (target : Int64) :
    ∃ p' m', (StoredSequence.flush target).runOn p = (.ok (), p') ∧ IsSafe step p' handed m' := by
  rw [StoredSequence.runOn_flush]
  -- The flush is skipped where the catalog holds a later margin.
  cases hnews : p.sequence.shouldFlush (p.sequence.reservationAt target.toInt) with
  | false => exact ⟨p, m, StoredSequence.runOn_flushMargin_of_not_shouldFlush hnews, h⟩
  | true =>
    have hlater := (Sequence.shouldFlush_iff h.generation.symm).mp hnews
    rw [h.sound.increment] at hlater
    -- A margin that is stored over another one lies further on.
    have hstored : p.sequence.flushedMargin = none ∨ along step m < along step target.toInt := by
      cases hlast : p.sequence.flushedMargin with
      | none => exact .inl rfl
      | some last => exact .inr (h.flushed hlast ▸ hlater last hlast)
    have hreserved : p.sequence.margin = p.sequence.value ∨
        along step p.sequence.margin ≤ along step target.toInt := by
      rcases hstored with hnone | hlt
      · exact .inl (h.fresh hnone).1
      · exact h.reserved.imp_right fun hle => Int.le_of_lt (Int.lt_of_le_of_lt hle hlt)
    have hpassed : ∀ v ∈ handed, along step v.toInt < along step p.sequence.value ∧
        along step v.toInt < along step target.toInt := by
      intro v hv
      rcases hstored with hnone | hlt
      · -- Before the first margin is stored nothing was handed out.
        rw [(h.fresh hnone).2] at hv
        cases hv
      · exact ⟨(h.passed v hv).1, Int.lt_trans (h.passed v hv).2 hlt⟩
    obtain ⟨p', hflush, -, hsafe⟩ := flushMargin (r := p.sequence.reservationAt target.toInt)
      h.sound h.ready hnews rfl h.aligned hreserved hpassed h.ordered
    exact ⟨p', _, hflush, hsafe⟩

theorem setCacheSize (h : IsSafe step p handed m) (size : Int64) :
    Keeps step p handed m (StoredSequence.setCacheSize size) :=
  h.alter (f := fun s => { s with cacheSize := max size 1 }) rfl (.inl rfl) (one_le_toInt_max size)

theorem setBelongsToTable (h : IsSafe step p handed m) (belongs : Bool) :
    Keeps step p handed m (StoredSequence.setBelongsToTable belongs) :=
  h.alter (f := fun s => { s with belongsToTable := belongs }) rfl (.inl rfl) h.sound.cache

theorem releaseReserved (h : IsSafe step p handed m) :
    Keeps step p handed m StoredSequence.releaseReserved := by
  unfold Keeps
  rw [StoredSequence.runOn_releaseReserved]
  split
  · exact h.alter (f := fun s => { s with margin := s.value }) rfl (.inr rfl) h.sound.cache
  · refine ⟨p, m, rfl, h, fun largest ht => ?_⟩
    rw [Int.max_eq_left ht.cache]
    exact ht

end IsSafe

end TxnStore
