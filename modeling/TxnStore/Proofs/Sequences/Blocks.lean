import Mathlib.Algebra.Order.Floor.Div
import TxnStore.Proofs.Sequences.LostMargins
import TxnStore.Proofs.Sequences.Refusals

/-!
# Blocks of numbers

A sequence that does not start over reserves its numbers block by block. A new block is stored in
the catalog with the first of its numbers, and no other call goes to the catalog. So the number of
commits and the margin in the catalog follow from how many numbers were handed out.
-/

namespace TxnStore

open TxnStore.Action

/-! ## Counting commits -/

/-- A batch that stages something and is committed counts as one commit. -/
theorem CatalogBatch.commits_of_commit {b b' : CatalogBatch} (hdirty : b.dirty = true)
    (hrun : commit.runOn b = (.ok (), b')) :
    b'.dirty = false ∧ b'.catalog.stats.commits = b.catalog.stats.commits + 1 := by
  rw [commit, runOn_bind, runOn_get] at hrun
  simp only [hdirty, if_true, runOn_bind, runOn_attempt, onStore, runOn_onPart] at hrun
  rcases hcommit : CatalogStore.commit.runOn b.catalog.store with ⟨err | u, store⟩
  · rw [hcommit] at hrun
    cases hrun
  · rw [hcommit] at hrun
    obtain ⟨-, rfl⟩ := Prod.mk.inj hrun
    exact ⟨rfl, rfl⟩

namespace StoredSequence

variable {p p' q q' : StoredSequence}

/-- A margin that is news is stored by one commit, and nothing else changes. -/
theorem stored_of_flushMargin {r : Reservation} (hidle : p.catalog.IsIdle)
    (htemporary : p.sequence.temporary = false) (hnews : p.sequence.shouldFlush r = true)
    (hrun : (flushMargin r).runOn p = (.ok (), p')) :
    p'.sequence = p.sequence.flushed r ∧ p'.catalog.IsIdle ∧
      p'.catalog.entry? p.sequence.entryKey =
        some (.ofSequence (p.sequence.definitionAt r.margin)) ∧
      p'.catalog.stats.commits = p.catalog.stats.commits + 1 := by
  -- The batch writes one entry and is committed, which is counted once.
  have hcommits : p'.catalog.stats.commits = p.catalog.stats.commits + 1 := by
    rw [flushMargin, inBatch, runOn_mk, runOn_bind,
      Sequence.runOn_stage_persistent hnews htemporary] at hrun
    -- The flush has succeeded, so that both the write and the commit have.
    rcases CatalogBatch.write_cases ⟨p.catalog, false⟩
      (.ofSequence (p.sequence.definitionAt r.margin)) with hwrite | ⟨err, hwrite⟩
    · rw [hwrite] at hrun
      simp only [Except.map, if_true, runOn_bind, runOn_onSecond] at hrun
      rcases hcommit : CatalogBatch.commit.runOn ((CatalogBatch.mk p.catalog false).staging
        (.write (.ofSequence (p.sequence.definitionAt r.margin)))) with ⟨err | u, b⟩
      · rw [hcommit] at hrun
        cases hrun
      · obtain ⟨hclean, hcount⟩ := CatalogBatch.commits_of_commit rfl hcommit
        rw [hcommit] at hrun
        obtain ⟨-, rfl⟩ := Prod.mk.inj hrun
        show b.drop.stats.commits = _
        rw [CatalogBatch.drop, hclean, if_neg Bool.false_ne_true, hcount]
        rfl
    · rw [hwrite] at hrun
      cases hrun
  -- What the flush has done is known; only the count was missing.
  obtain ⟨catalog, hidle', ⟨hflush, -, hentry⟩ | ⟨err, hflush, -⟩⟩ :=
    flushMargin_cases hidle htemporary hnews
  · obtain ⟨-, rfl⟩ := Prod.mk.inj (hrun.symm.trans hflush)
    exact ⟨rfl, hidle', hentry, hcommits⟩
  · cases hrun.symm.trans hflush

/-! ## Runs of calls that give numbers -/

/-- A number of calls, each of which gave a number, whichever calls of the catalog were set to fail
while it ran. -/
inductive HandsOut (p : StoredSequence) : Nat → StoredSequence → Prop where
  | start : HandsOut p 0 p
  | further {n : Nat} {q q' : StoredSequence} {v : Int64} (faults : CatalogFaults)
      (h : HandsOut p n q) (hrun : next.runOn (q.withFaults faults) = (.ok v, q')) :
      HandsOut p (n + 1) q'

/-- A call that answers with a number is one more. -/
theorem HandsOut.answered {n : Nat} (h : HandsOut p n q) (faults : CatalogFaults)
    (hsome : (next.runOn (q.withFaults faults)).1.toOption.isSome = true) :
    HandsOut p (n + 1) (next.runOn (q.withFaults faults)).2 := by
  rcases hrun : next.runOn (q.withFaults faults) with ⟨err | v, q'⟩
  · rw [hrun] at hsome
    cases hsome
  · exact .further faults h hrun

end StoredSequence

namespace Sequence

variable {s : Sequence}

/-- How many numbers are reserved at a time. -/
def blockSize (s : Sequence) : Nat := s.cacheSize.toInt.toNat

/-- The end of the block in which the last of a number of numbers lies. -/
def blockEnd (s : Sequence) (n : Nat) : Int :=
  s.value + s.increment.toInt * (s.blockSize * (n ⌈/⌉ s.blockSize) : Nat)

end Sequence

/-- A further number begins a new block where the last one is used up. -/
theorem ceilDiv_succ {c : Nat} (hc : 0 < c) (n : Nat) :
    (n + 1) ⌈/⌉ c = if c * (n ⌈/⌉ c) = n then n ⌈/⌉ c + 1 else n ⌈/⌉ c := by
  have hn := Nat.div_add_mod n c
  have hmod := Nat.mod_lt n hc
  -- One more number fills the block that the last one has left open, or opens another.
  have hnext : (n + 1) ⌈/⌉ c = n / c + 1 := by
    rw [Nat.ceilDiv_eq_add_pred_div, show n + 1 + c - 1 = n + c by omega, Nat.add_div_right n hc]
  rw [hnext]
  rcases Nat.eq_zero_or_pos (n % c) with hfull | hrest
  · have hhere : n ⌈/⌉ c = n / c := by
      rw [Nat.ceilDiv_eq_add_pred_div, Nat.div_eq_iff hc, Nat.mul_comm]
      omega
    rw [hhere, if_pos (by omega)]
  · have hhere : n ⌈/⌉ c = n / c + 1 := by
      rw [Nat.ceilDiv_eq_add_pred_div, Nat.div_eq_iff hc, Nat.mul_comm, Nat.mul_succ]
      omega
    rw [hhere, if_neg (by rw [Nat.mul_succ]; omega)]

namespace Sequence

theorem IsRegular.blockSize_pos {s : Sequence} (h : s.IsRegular) : 0 < s.blockSize := by
  have hcache := h.cache
  unfold blockSize
  omega

/-- A new block ends as many numbers behind the block before as are reserved at a time. -/
theorem IsRegular.blockEnd_succ {s : Sequence} (h : s.IsRegular) (n : Nat) :
    s.blockEnd (n + 1) =
      if s.blockSize * (n ⌈/⌉ s.blockSize) = n then s.reserveFrom (s.blockEnd n)
      else s.blockEnd n := by
  have hsize : (s.blockSize : Int) = s.cacheSize.toInt := Int.toNat_of_nonneg (by
    have hcache := h.cache
    omega)
  rw [blockEnd, ceilDiv_succ h.blockSize_pos]
  split
  · rw [reserveFrom, ← hsize, Nat.mul_succ, Int.natCast_add, Int.mul_add, ← Int.add_assoc]
    rfl
  · rfl

/-- The sequence after a number of numbers, with what it has noted about margins. -/
def afterNumbers (s : Sequence) (n : Nat) (persisted : Int) (flushed : Option Int) : Sequence :=
  { s with
    value := s.value + s.increment.toInt * n
    margin := s.blockEnd n
    persistedMargin := persisted
    flushedMargin := flushed }

variable {s : Sequence} {n : Nat} {m : Int} {last : Option Int}

theorem drawn_afterNumbers :
    (s.afterNumbers n m last).drawn (s.blockEnd (n + 1)) = s.afterNumbers (n + 1) m last := by
  have hvalue : s.value + s.increment.toInt * n + s.increment.toInt =
      s.value + s.increment.toInt * (n + 1 : Nat) := by
    rw [Int.natCast_succ, Int.mul_add, Int.mul_one, Int.add_assoc]
  simp only [drawn, afterNumbers, hvalue]

/-- The numbers reserved are used up where a block ends. -/
theorem IsRegular.isUsedUp_afterNumbers (h : s.IsRegular) :
    (s.afterNumbers n m last).isUsedUp = decide (s.blockSize * (n ⌈/⌉ s.blockSize) = n) := by
  have hcovered : n ≤ s.blockSize * (n ⌈/⌉ s.blockSize) := le_smul_ceilDiv h.blockSize_pos
  -- What is left of the block lies between the cursor and the margin.
  obtain ⟨k, hk⟩ := Nat.exists_eq_add_of_le hcovered
  have hmargin : (s.afterNumbers n m last).margin =
      (s.afterNumbers n m last).value + s.increment.toInt * k := by
    show s.value + _ = s.value + _ + _
    rw [hk, Int.natCast_add, Int.mul_add, Int.add_assoc]
  rw [isUsedUp_eq (s := s.afterNumbers n m last) rfl h.moves hmargin, hk]
  exact decide_eq_decide.mpr (by omega)

theorem IsRegular.marginAfter_afterNumbers (h : s.IsRegular) :
    (s.afterNumbers n m last).marginAfter = s.blockEnd (n + 1) := by
  rw [marginAfter, h.isUsedUp_afterNumbers, h.blockEnd_succ]
  simp only [decide_eq_true_eq]
  rfl

end Sequence

/-- The state after a number of calls that gave numbers. -/
structure Sequence.IsInBlock (s : Sequence) (commits n : Nat) (q : StoredSequence) : Prop where
  same : q.sequence = s.afterNumbers n q.sequence.persistedMargin q.sequence.flushedMargin
  flushed : ∀ {last}, q.sequence.flushedMargin = some last → last = s.blockEnd n
  idle : q.catalog.IsIdle
  count : q.catalog.stats.commits = commits + n ⌈/⌉ s.blockSize
  stored : 0 < n →
    q.catalog.entry? s.entryKey = some (.ofSequence (s.definitionAt (s.blockEnd n)))

namespace Sequence.IsInBlock

variable {s : Sequence} {commits n : Nat} {q q' : StoredSequence}

theorem withFaults (h : s.IsInBlock commits n q) (faults : CatalogFaults) :
    s.IsInBlock commits n (q.withFaults faults) :=
  ⟨h.same, h.flushed, h.idle.withFaults faults, h.count, h.stored⟩

/-- A block is begun once its end is stored. -/
theorem of_flushMargin (htemporary : s.temporary = false)
    (hgeneration : s.generation = s.flushedGeneration) {catalog : Catalog} {m : Int}
    {last : Option Int} (hidle : catalog.IsIdle)
    (hcount : catalog.stats.commits + 1 = commits + n ⌈/⌉ s.blockSize)
    (hahead : ∀ before, last = some before →
      along s.increment before < along s.increment (s.blockEnd n))
    (hrun : (StoredSequence.flushMargin ⟨s.blockEnd n, s.generation⟩).runOn
      ⟨s.afterNumbers n m last, catalog⟩ = (.ok (), q')) : s.IsInBlock commits n q' := by
  have hnews : (s.afterNumbers n m last).shouldFlush ⟨s.blockEnd n, s.generation⟩ = true :=
    (Sequence.shouldFlush_iff hgeneration).mpr hahead
  obtain ⟨hsequence, hidle', hentry, hcommits⟩ := StoredSequence.stored_of_flushMargin
    (p := ⟨s.afterNumbers n m last, catalog⟩) hidle htemporary hnews hrun
  refine ⟨?_, fun hlast => ?_, hidle', hcommits.trans hcount, fun _ => hentry⟩
  · rw [hsequence, Sequence.flushed, hgeneration]
    rfl
  · rw [hsequence] at hlast
    exact (Option.some.inj hlast).symm

/-- A call that gives a number begins a block by storing its end, or it takes the number from the
block begun last. -/
theorem next (hregular : s.IsRegular) (htemporary : s.temporary = false) (hcycle : s.cycle = false)
    (hgeneration : s.generation = s.flushedGeneration) (h : s.IsInBlock commits n q) {v : Int64}
    (hrun : StoredSequence.next.runOn q = (.ok v, q')) : s.IsInBlock commits (n + 1) q' := by
  obtain ⟨hsame, hflushed, hidle, hcount, hstored⟩ := h
  obtain ⟨t, catalog⟩ := q
  generalize hm : t.persistedMargin = m at hsame
  generalize hlast : t.flushedMargin = last at hsame hflushed
  dsimp only at hsame hcount hstored
  subst hsame
  have hend := hregular.blockEnd_succ n
  have hcommits := ceilDiv_succ hregular.blockSize_pos n
  rw [StoredSequence.runOn_next] at hrun
  -- The sequence is not exhausted, since the call has answered, and there is no other round.
  rcases (s.afterNumbers n m last).draw_cases with ⟨-, -, hdraw⟩ | ⟨-, hrounds, -⟩ | ⟨-, hdraw⟩
  · rw [hdraw] at hrun
    cases hrun
  · cases hcycle.symm.trans hrounds
  rw [hdraw, reservationAfter, hregular.marginAfter_afterNumbers, drawn_afterNumbers,
    hregular.isUsedUp_afterNumbers] at hrun
  -- The call goes to the catalog exactly if the last block is used up.
  by_cases hfull : s.blockSize * (n ⌈/⌉ s.blockSize) = n
  · rw [if_pos hfull] at hend hcommits
    rw [decide_eq_true hfull, if_pos rfl] at hrun
    dsimp only at hrun
    rcases hflush : (StoredSequence.flushMargin ⟨s.blockEnd (n + 1), s.generation⟩).runOn
      ⟨s.afterNumbers (n + 1) m last, catalog⟩ with ⟨err | u, p'⟩
    all_goals
      rw [show (s.afterNumbers n m last).generation = s.generation from rfl, hflush] at hrun
    · cases hrun
    · obtain ⟨-, rfl⟩ := Prod.mk.inj hrun
      refine of_flushMargin htemporary hgeneration hidle ?_ (fun before hbefore => ?_) hflush
      · rw [hcount, hcommits, Nat.add_assoc]
      · rw [hend, hflushed hbefore]
        exact hregular.lt_reserveFrom _
  · -- Within a block the catalog is not touched.
    rw [if_neg hfull] at hend hcommits
    rw [decide_eq_false hfull, if_neg Bool.false_ne_true] at hrun
    obtain ⟨-, rfl⟩ := Prod.mk.inj hrun
    -- Before the first number no block was begun, so that the entry may be any.
    have hsome : 0 < n := by
      rcases Nat.eq_zero_or_pos n with rfl | hpos
      · exact absurd (by rw [zero_ceilDiv, Nat.mul_zero]) hfull
      · exact hpos
    exact ⟨rfl, fun hbefore => hend ▸ hflushed hbefore, hidle, hcommits ▸ hcount,
      fun _ => hend ▸ hstored hsome⟩

end Sequence.IsInBlock

/-! ## Main result -/

namespace Sequence

variable {s : Sequence}

/-- Nothing is reserved at first, and what counts as stored, if anything does, is the cursor. -/
theorem IsMade.fresh (h : s.IsMade) : s.margin = s.value ∧ s.generation = s.flushedGeneration ∧
    ∀ {last}, s.flushedMargin = some last → last = s.value := by
  cases h with
  | created hcreate =>
    unfold create at hcreate
    split at hcreate
    · obtain rfl := Except.ok.inj hcreate
      exact ⟨rfl, rfl, nofun⟩
    · cases hcreate
  | recovered hrecover =>
    obtain ⟨-, rfl⟩ := eq_of_recover hrecover
    exact ⟨rfl, rfl, fun hlast => (Option.some.inj hlast).symm⟩

/-- A margin ahead of the cursor is stored as the word that it is, or as the last word in the
direction of the sequence, with a mark. -/
theorem IsRegular.definitionAt_cases (h : s.IsRegular) {m : Int}
    (hm : along s.increment s.value ≤ along s.increment m) :
    if leastWord ≤ m ∧ m ≤ greatestWord then
      (s.definitionAt m).start.toInt = m ∧ (s.definitionAt m).exhausted = false
    else
      (s.definitionAt m).start = (if s.ascending then Int64.maxValue else Int64.minValue) ∧
        (s.definitionAt m).exhausted = true := by
  obtain ⟨hleast, hgreatest⟩ := word_limits
  have hbegun := h.begun
  have hmin := word_bounds s.minValue
  have hmax := word_bounds s.maxValue
  rw [firstBound_eq] at hbegun
  unfold along at hm hbegun
  unfold definitionAt ascending
  -- Going up, the margin leaves the words upwards, going down, downwards.
  by_cases hup : 0 < s.increment.toInt
  · simp only [hup, decide_true, if_true] at hm hbegun ⊢
    split
    · next hword => exact ⟨toInt_saturate_of_word hword.1 hword.2, decide_eq_false (by omega)⟩
    · refine ⟨Int64.toInt_inj.mp ?_, decide_eq_true (by omega)⟩
      rw [toInt_saturate]
      show _ = greatestWord
      omega
  · simp only [hup, decide_false, Bool.false_eq_true, if_false] at hm hbegun ⊢
    split
    · next hword => exact ⟨toInt_saturate_of_word hword.1 hword.2, decide_eq_false (by omega)⟩
    · refine ⟨Int64.toInt_inj.mp ?_, decide_eq_true (by omega)⟩
      rw [toInt_saturate]
      show _ = leastWord
      omega

end Sequence

namespace StoredSequence

variable {s : Sequence} {catalog : Catalog} {n : Nat} {q : StoredSequence}

/-- What one call keeps holds after any number of them. -/
theorem HandsOut.isInBlock (hmade : s.IsMade) (htemporary : s.temporary = false)
    (hcycle : s.cycle = false) (hidle : catalog.IsIdle) (h : HandsOut ⟨s, catalog⟩ n q) :
    s.IsInBlock catalog.stats.commits n q := by
  obtain ⟨hmargin, hgeneration, hlast⟩ := hmade.fresh
  have hend : s.blockEnd 0 = s.value := by simp [Sequence.blockEnd]
  induction h with
  | start =>
    -- Nothing was handed out yet, and the entry may be any.
    refine ⟨?_, fun h => (hlast h).trans hend.symm, hidle, by simp, nofun⟩
    show s = s.afterNumbers 0 s.persistedMargin s.flushedMargin
    rw [Sequence.afterNumbers, hend, show s.value + s.increment.toInt * (0 : Nat) = s.value by simp]
    nth_rewrite 2 [← hmargin]
    rfl
  | further faults _ hrun ih =>
    exact (ih.withFaults faults).next hmade.regular htemporary hcycle hgeneration hrun

/-- A sequence that is kept in a catalog and does not start over goes to it once for each block of
numbers: after a number of calls that gave numbers, as many commits were made as blocks were begun,
and the entry of the sequence starts behind the last one of them. Where that lies beyond the words,
it starts at the last word and is marked as exhausted. -/
theorem blocks_of_made (hmade : s.IsMade) (htemporary : s.temporary = false)
    (hcycle : s.cycle = false) (hidle : catalog.IsIdle) (h : HandsOut ⟨s, catalog⟩ n q) :
    let c := s.cacheSize.toInt.toNat
    let m := s.value + s.increment.toInt * (c * (n ⌈/⌉ c) : Nat)
    q.catalog.stats.commits = catalog.stats.commits + n ⌈/⌉ c ∧
      (0 < n → ∃ d, q.catalog.entry? ⟨.sequence, s.name⟩ = some (.ofSequence d) ∧
        d = { s.definition with start := d.start, exhausted := d.exhausted } ∧
        if leastWord ≤ m ∧ m ≤ greatestWord then d.start.toInt = m ∧ d.exhausted = false
        else d.start = (if 0 < s.increment.toInt then Int64.maxValue else Int64.minValue) ∧
          d.exhausted = true) := by
  intro c m
  -- Each number belongs to the block that was reserved for it.
  have hblock := h.isInBlock hmade htemporary hcycle hidle
  refine ⟨hblock.count, fun hsome => ⟨_, hblock.stored hsome, rfl, ?_⟩⟩
  have hahead : along s.increment s.value ≤ along s.increment m := by
    rw [along_steps]
    have hsteps := Int.mul_nonneg (Int.le_of_lt (along_step_pos hmade.regular.moves))
      (Int.natCast_nonneg (c * (n ⌈/⌉ c)))
    omega
  have hcases := hmade.regular.definitionAt_cases hahead
  simp only [Sequence.ascending, decide_eq_true_eq] at hcases
  exact hcases

/-- Four numbers up to the greatest word are two blocks of three, and the second one ends beyond the
words. The catalog may fail for as long as a block lasts. -/
theorem blocks_of_made_beyond_words :
    let d : SequenceDefinition :=
      ⟨⟨1⟩, "rows", Int64.maxValue - 6, 2, 1, Int64.maxValue, 3, false, false, false⟩
    let catalog := ((Catalog.persist (.ofSequence d)).runOn .inMemory).2
    ∃ s q, Sequence.recover d = .ok s ∧ s.IsMade ∧ s.temporary = false ∧ s.cycle = false ∧
      catalog.IsIdle ∧ HandsOut ⟨s, catalog⟩ 4 q ∧
      q.catalog.stats.commits = catalog.stats.commits + 2 ∧
      ∃ e, q.catalog.entry? ⟨.sequence, "rows"⟩ = some (.ofSequence e) ∧
        e.start = Int64.maxValue ∧ e.exhausted = true := by
  intro d catalog
  let s : Sequence := { Sequence.ofDefinition d with flushedMargin := some d.nextValue }
  have hrecover : Sequence.recover d = .ok s := if_pos (by decide +kernel)
  have hidle : catalog.IsIdle := by
    obtain ⟨c, hrun, hready, -⟩ := Catalog.isReady_inMemory.persist (.ofSequence d)
    show ((Catalog.persist (.ofSequence d)).runOn .inMemory).2.IsIdle
    rw [hrun]
    exact hready.idle
  have h : ∃ q, HandsOut ⟨s, catalog⟩ 4 q := by
    -- Two of the calls go to the catalog, the others would not notice that it fails.
    have h₁ := (HandsOut.start (p := ⟨s, catalog⟩)).answered .none (by decide +kernel)
    have h₂ := h₁.answered .atCommit (by decide +kernel)
    have h₃ := h₂.answered .atCommit (by decide +kernel)
    exact ⟨_, h₃.answered .none (by decide +kernel)⟩
  obtain ⟨q, h⟩ := h
  obtain ⟨hcommits, hentry⟩ := blocks_of_made (.recovered hrecover) rfl rfl hidle h
  obtain ⟨e, hstored, -, hlimits⟩ := hentry (by omega)
  have hbeyond : ¬(s.value + s.increment.toInt *
      (s.cacheSize.toInt.toNat * (4 ⌈/⌉ s.cacheSize.toInt.toNat) : Nat) ≤ greatestWord) := by
    decide +kernel
  have hblocks : 4 ⌈/⌉ s.cacheSize.toInt.toNat = 2 := by decide +kernel
  rw [if_neg fun hword => hbeyond hword.2] at hlimits
  rw [hblocks] at hcommits
  exact ⟨s, _, hrecover, .recovered hrecover, rfl, rfl, hidle, h, hcommits, e, hstored, hlimits⟩

end StoredSequence

end TxnStore
