import Mathlib.Data.List.Nodup
import TxnStore.Proofs.Transactions.Outcomes

/-!
# Writes are finished once

The records of a log are gone through again and again: to write their redo, to make their writes
final, to undo them, while maps come and go. A record whose write is finished stays as it is from
then on, and whatever is done to it later changes neither a map nor any count. A record whose write
is undone is not seen again.
-/

namespace TxnStore

open TxnStore.Action

/-! ## What is done to one record -/

/-- What a record may become: no more than its state changes, and nothing once its write is
finished. -/
structure UndoRecord.Becomes (r r' : UndoRecord) : Prop where
  eq_with_state : r' = { r with state := r'.state }
  eq_of_isFinished : r.isFinished = true → r' = r

namespace UndoRecord.Becomes

variable {r r' r'' : UndoRecord}

theorem refl (r : UndoRecord) : r.Becomes r := ⟨rfl, fun _ => rfl⟩

theorem trans (h : r.Becomes r') (h' : r'.Becomes r'') : r.Becomes r'' where
  eq_with_state := by rw [h'.eq_with_state, h.eq_with_state]
  eq_of_isFinished hfinished := by
    have hsame := h.eq_of_isFinished hfinished
    rw [h'.eq_of_isFinished (hsame ▸ hfinished), hsame]

end UndoRecord.Becomes

/-- What a log does to its records, one by one. -/
inductive RecordOp
  | writeRedo
  | commit
  | rollback
deriving DecidableEq

/-- What comes of it: the record, the bytes of redo and the engine, and how many bytes were written
or why they could not be. -/
structure RecordOutcome where
  answer : Except StoreError Nat
  record : UndoRecord
  bytes : List UInt8
  engine : Engine

namespace RecordOp

variable {op : RecordOp} {r : UndoRecord} {bs : List UInt8} {e : Engine}

def on (op : RecordOp) (r : UndoRecord) (bs : List UInt8) (e : Engine) : RecordOutcome :=
  match op with
  | writeRedo =>
    let (answer, bs, e) := r.writeRedo.runOn (bs, e)
    ⟨answer, r, bs, e⟩
  | commit =>
    let (r, e) := r.commit e
    ⟨.ok 0, r, bs, e⟩
  | rollback =>
    let (r, e) := r.rollback e
    ⟨.ok 0, r, bs, e⟩

/-- Nothing is done to a record whose write is finished. -/
theorem on_of_isFinished (h : r.isFinished = true) (op : RecordOp) (bs : List UInt8) (e : Engine) :
    op.on r bs e = ⟨.ok 0, r, bs, e⟩ := by
  cases op with
  | writeRedo => rw [on, r.runOn_writeRedo, if_pos h]
  | commit => rw [on, UndoRecord.commit, if_pos h]
  | rollback => rw [on, UndoRecord.rollback, if_pos h]

theorem record_on_writeRedo : (on writeRedo r bs e).record = r := rfl

theorem maps_on_writeRedo : (on writeRedo r bs e).engine.maps = e.maps := by
  obtain ⟨dirty, heq⟩ := r.writeRedo_eq bs e
  rw [show (on writeRedo r bs e).engine = (r.writeRedo.runOn (bs, e)).2.2 from rfl, heq]

/-- A commit and a rollback of a pending write finish it, in its map or without it. -/
theorem on_cases (hop : op ≠ writeRedo) (h : ¬r.isFinished = true) (bs : List UInt8) (e : Engine) :
    ∃ state, state ≠ .pending ∧ (op.on r bs e).record = { r with state } ∧
      ((op.on r bs e).engine.maps = e.maps ∨
        ∃ m, (op.on r bs e).engine.maps = e.maps.insert r.map m) := by
  cases op with
  | writeRedo => exact absurd rfl hop
  | commit =>
    -- Where the map is open the record is applied, else it is passed over; it is final either way.
    rw [on, UndoRecord.commit, if_neg h]
    cases e.maps.get? r.map with
    | none => exact ⟨.skipped, by decide, rfl, .inl rfl⟩
    | some m => exact ⟨.applied, by decide, rfl, .inr ⟨_, rfl⟩⟩
  | rollback =>
    rw [on, UndoRecord.rollback, if_neg h]
    cases e.maps.get? r.map with
    | none => exact ⟨.skipped, by decide, rfl, .inl rfl⟩
    | some m => exact ⟨.reverted, by decide, rfl, .inr ⟨_, rfl⟩⟩

/-- After a commit and a rollback a write is finished, if it was not before. -/
theorem isFinished_on (hop : op ≠ writeRedo) (r : UndoRecord) (bs : List UInt8) (e : Engine) :
    (op.on r bs e).record.isFinished = true := by
  by_cases h : r.isFinished = true
  · rw [on_of_isFinished h]
    exact h
  · obtain ⟨state, hstate, hrecord, -⟩ := on_cases hop h bs e
    rw [hrecord]
    exact decide_eq_true hstate

theorem becomes_on (op : RecordOp) (r : UndoRecord) (bs : List UInt8) (e : Engine) :
    r.Becomes (op.on r bs e).record := by
  refine ⟨?_, fun h => by rw [on_of_isFinished h]⟩
  by_cases h : r.isFinished = true
  · rw [on_of_isFinished h]
  · by_cases hop : op = writeRedo
    · rw [hop, record_on_writeRedo]
    · obtain ⟨state, -, hrecord, -⟩ := on_cases hop h bs e
      rw [hrecord]

/-- No map but the one written to is changed. -/
theorem get?_maps_on {name : String} (hname : name ≠ r.map) :
    (op.on r bs e).engine.maps.get? name = e.maps.get? name := by
  by_cases h : r.isFinished = true
  · rw [on_of_isFinished h]
  · by_cases hop : op = writeRedo
    · rw [hop, maps_on_writeRedo]
    · obtain ⟨-, -, -, hmaps | ⟨m, hmaps⟩⟩ := on_cases hop h bs e
      · rw [hmaps]
      · rw [hmaps, Table.get?_insert_ne e.maps hname]

end RecordOp

/-- Something done to the record of a number, and the bytes and the engine before. -/
structure RecordStep where
  op : RecordOp
  number : Nat
  record : UndoRecord
  bytes : List UInt8
  engine : Engine

namespace RecordStep

variable {s : RecordStep} {r : UndoRecord}

/-- What comes of a step. -/
def outcome (s : RecordStep) : RecordOutcome := s.op.on s.record s.bytes s.engine

/-- The step leaves other maps than it has found. -/
def ChangesMaps (s : RecordStep) : Prop := s.outcome.engine.maps ≠ s.engine.maps

/-- A record may follow a step of its number: none does once a write is undone, and it is what the
record left by the step may become. -/
structure IsFollowedBy (s : RecordStep) (r : UndoRecord) : Prop where
  op_ne : s.op ≠ .rollback
  becomes : s.outcome.record.Becomes r

/-- A step that changes a map finishes its write. -/
theorem ChangesMaps.isFinished (h : s.ChangesMaps) : s.outcome.record.isFinished = true := by
  apply RecordOp.isFinished_on
  intro hop
  apply h
  rw [outcome, hop, RecordOp.maps_on_writeRedo]

theorem outcome_of_isFinished (h : s.record.isFinished = true) :
    s.outcome = ⟨.ok 0, s.record, s.bytes, s.engine⟩ :=
  RecordOp.on_of_isFinished h s.op s.bytes s.engine

/-- Of two steps of a record only one changes a map. -/
theorem IsFollowedBy.not_changesMaps {s' : RecordStep} (h : s.IsFollowedBy s'.record)
    (hchanges : s.ChangesMaps) : ¬s'.ChangesMaps := by
  have hfinished := hchanges.isFinished
  intro hchanges'
  apply hchanges'
  have hsame := h.becomes.eq_of_isFinished hfinished
  rw [outcome_of_isFinished (hsame ▸ hfinished)]

end RecordStep

/-! ## Going through records -/

namespace RecordOp

variable {op : RecordOp} {rs : List (Nat × UndoRecord)} {bs : List UInt8} {e : Engine}

/-- The steps of going through records in the order given, up to one that cannot be written. -/
def through (op : RecordOp) : List (Nat × UndoRecord) → List UInt8 → Engine → List RecordStep
  | [], _, _ => []
  | (number, record) :: rest, bs, e =>
    let step : RecordStep := ⟨op, number, record, bs, e⟩
    match step.outcome.answer with
    | .error _ => [step]
    | .ok _ => step :: op.through rest step.outcome.bytes step.outcome.engine

theorem mem_of_mem_through {s : RecordStep} (h : s ∈ op.through rs bs e) :
    s.op = op ∧ (s.number, s.record) ∈ rs := by
  induction rs generalizing bs e with
  | nil => cases h
  | cons entry rest ih =>
    obtain ⟨number, record⟩ := entry
    unfold through at h
    simp only at h
    -- The writing stops here, or the rest of the records follows.
    split at h
    · obtain rfl := List.mem_singleton.mp h
      exact ⟨rfl, List.mem_cons_self⟩
    · rcases List.mem_cons.mp h with rfl | h
      · exact ⟨rfl, List.mem_cons_self⟩
      · exact ⟨(ih h).1, List.mem_cons_of_mem _ (ih h).2⟩

theorem numbers_through_sublist (op : RecordOp) (rs : List (Nat × UndoRecord)) (bs : List UInt8)
    (e : Engine) : ((op.through rs bs e).map RecordStep.number).Sublist (rs.map Prod.fst) := by
  induction rs generalizing bs e with
  | nil => exact List.Sublist.slnil
  | cons entry rest ih =>
    unfold through
    simp only
    split
    · exact List.Sublist.cons_cons _ (List.nil_sublist _)
    · exact List.Sublist.cons_cons _ (ih _ _)

/-- No record is gone through twice. -/
theorem nodup_through (h : (rs.map Prod.fst).Nodup) :
    ((op.through rs bs e).map RecordStep.number).Nodup :=
  h.sublist (numbers_through_sublist op rs bs e)

/-- A commit of a log leaves what its steps leave. -/
theorem records_through_commit (rs : List (Nat × UndoRecord)) (bs : List UInt8) (e : Engine) :
    (commit.through rs bs e).map (fun s => (s.number, s.outcome.record)) =
      (rs.map Prod.fst).zip (UndoLog.commit (rs.map Prod.snd) e).1 := by
  induction rs generalizing e with
  | nil => rfl
  | cons entry rest ih => exact congrArg (List.cons _) (ih (entry.2.commit e).2)

end RecordOp

/-! ## What happens to an engine -/

/-- What happens to an engine: a step of a record, or anything else. -/
inductive UndoEvent
  | record (s : RecordStep)
  | elsewhere (f : Engine → Engine)

namespace UndoEvent

variable {e e' : Engine}

def step? : UndoEvent → Option RecordStep
  | record s => some s
  | elsewhere _ => none

/-- The events make the one engine of the other, each taking up what the one before has left. -/
def Lead : Engine → List UndoEvent → Engine → Prop
  | e, [], e' => e = e'
  | e, record s :: rest, e' => s.engine = e ∧ Lead s.outcome.engine rest e'
  | e, elsewhere f :: rest, e' => Lead (f e) rest e'

theorem Lead.append {middle : Engine} {events events' : List UndoEvent}
    (h : Lead e events middle) (h' : Lead middle events' e') : Lead e (events ++ events') e' := by
  induction events generalizing e with
  | nil => exact (show e = middle from h) ▸ h'
  | cons event rest ih =>
    cases event with
    | record s => exact ⟨h.1, ih h.2⟩
    | elsewhere f => exact ih (e := f e) h

theorem lead_commit (rs : List (Nat × UndoRecord)) (bs : List UInt8) (e : Engine) :
    Lead e ((RecordOp.commit.through rs bs e).map record)
      (UndoLog.commit (rs.map Prod.snd) e).2 := by
  induction rs generalizing e with
  | nil => rfl
  | cons entry rest ih => exact ⟨rfl, ih (entry.2.commit e).2⟩

theorem lead_rollback (rs : List (Nat × UndoRecord)) (bs : List UInt8) (e : Engine) :
    Lead e ((RecordOp.rollback.through rs bs e).map record)
      (UndoLog.revertAll (rs.map Prod.snd) e).2 := by
  induction rs generalizing e with
  | nil => rfl
  | cons entry rest ih => exact ⟨rfl, ih (entry.2.rollback e).2⟩

theorem lead_writeRedo (rs : List (Nat × UndoRecord)) (bs : List UInt8) (e : Engine) :
    Lead e ((RecordOp.writeRedo.through rs bs e).map record)
      ((UndoLog.writeRedo (rs.map Prod.snd)).runOn (bs, e)).2.2 := by
  -- Every step leads to the engine in which the next one is made.
  induction rs generalizing bs e with
  | nil => rfl
  | cons entry rest ih =>
    obtain ⟨number, r⟩ := entry
    rw [List.map_cons, UndoLog.writeRedo, runOn_bind]
    simp only [RecordOp.through, RecordStep.outcome, RecordOp.on]
    rcases hr : r.writeRedo.runOn (bs, e) with ⟨err | n, bs', e'⟩
    · -- A record that cannot be written ends the writing.
      exact ⟨rfl, by simp only [RecordStep.outcome, RecordOp.on, hr]; rfl⟩
    · refine ⟨rfl, ?_⟩
      have hrest := ih bs' e'
      simp only [RecordStep.outcome, RecordOp.on, hr, runOn_bind]
      rcases hw : (UndoLog.writeRedo (rest.map Prod.snd)).runOn (bs', e')
        with ⟨err | k, bs'', e''⟩ <;>
        · rw [hw] at hrest
          exact hrest

end UndoEvent

/-! ## Runs of a log -/

/-- A call on a log. All writes are undone from position 0 on. -/
inductive UndoCall
  | append (r : UndoRecord)
  | writeRedo (bs : List UInt8)
  | commit
  | rollbackTo (position : Nat)
  /-- What others do to the engine in between: they drop maps, create them, and write to them. -/
  | elsewhere (f : Engine → Engine)

/-- A log and its engine, with the numbers under which the records were appended and with all that
has happened to the engine. -/
structure UndoRun where
  log : UndoLog
  engine : Engine
  numbers : List Nat
  /-- The records as they were appended, those of the start in front of them. -/
  appended : List UndoRecord
  events : List UndoEvent

namespace UndoRun

variable {run : UndoRun} {e e' : Engine}

/-- A log before the first call. -/
def start (log : UndoLog) (e : Engine) : UndoRun :=
  ⟨log, e, List.range log.length, log, []⟩

/-- The records with their numbers. -/
def entries (run : UndoRun) : List (Nat × UndoRecord) := run.numbers.zip run.log

/-- The steps of records, the earliest first. -/
def steps (run : UndoRun) : List RecordStep := run.events.filterMap UndoEvent.step?

def note (run : UndoRun) (steps : List RecordStep) : UndoRun :=
  { run with events := run.events ++ steps.map .record }

def after (run : UndoRun) : UndoCall → UndoRun
  | .append r =>
    { run with
      log := run.log ++ [r]
      numbers := run.numbers ++ [run.appended.length]
      appended := run.appended ++ [r] }
  | .writeRedo bs =>
    { run.note (RecordOp.writeRedo.through run.entries bs run.engine) with
      engine := ((UndoLog.writeRedo run.log).runOn (bs, run.engine)).2.2 }
  | .commit =>
    let (log, engine) := run.log.commit run.engine
    { run.note (RecordOp.commit.through run.entries [] run.engine) with log, engine }
  | .rollbackTo position =>
    let (_, log, engine) := run.log.rollbackTo position run.engine
    { run.note (RecordOp.rollback.through (run.entries.drop position).reverse [] run.engine) with
      log, engine
      numbers := run.numbers.take position }
  | .elsewhere f =>
    { run with engine := f run.engine, events := run.events ++ [.elsewhere f] }

/-- A record comes of the one that was appended under a number. -/
def IsRecordOf (run : UndoRun) (n : Nat) (r : UndoRecord) : Prop :=
  ∃ r₀, run.appended[n]? = some r₀ ∧ r₀.Becomes r

/-! ### What is true of every run -/

/-- The records have numbers of their own and come of those appended under them, and they follow the
steps made under their numbers. The same is true of the records of the steps. -/
structure IsSound (run : UndoRun) : Prop where
  length_eq : run.numbers.length = run.log.length
  nodup : run.numbers.Nodup
  recordOf : ∀ n r, (n, r) ∈ run.entries → run.IsRecordOf n r
  recordOf_step : ∀ s ∈ run.steps, run.IsRecordOf s.number s.record
  follow : ∀ s ∈ run.steps, ∀ r, (s.number, r) ∈ run.entries → s.IsFollowedBy r
  pairwise : run.steps.Pairwise fun a b => a.number = b.number → a.IsFollowedBy b.record

theorem steps_note (run : UndoRun) (ss : List RecordStep) :
    (run.note ss).steps = run.steps ++ ss := by
  have hsteps : (ss.map UndoEvent.record).filterMap UndoEvent.step? = ss := by
    rw [List.filterMap_map]
    exact List.filterMap_some
  rw [steps, note, List.filterMap_append, hsteps, steps]

theorem IsRecordOf.lt {n : Nat} {r : UndoRecord} (h : run.IsRecordOf n r) :
    n < run.appended.length := by
  obtain ⟨r₀, hr₀, -⟩ := h
  exact List.getElem?_eq_some_iff.mp hr₀ |>.1

theorem IsRecordOf.append {n : Nat} {r : UndoRecord} (h : run.IsRecordOf n r) (r' : UndoRecord) :
    (run.after (.append r')).IsRecordOf n r := by
  have hlt := h.lt
  obtain ⟨r₀, hr₀, hbecomes⟩ := h
  exact ⟨r₀, (List.getElem?_append_left hlt).trans hr₀, hbecomes⟩

theorem length_commit (log : UndoLog) (e : Engine) : (log.commit e).1.length = log.length := by
  induction log generalizing e with
  | nil => rfl
  | cons r rest ih => exact congrArg (· + 1) (ih (r.commit e).2)

namespace IsSound

theorem map_fst_entries (h : run.IsSound) : run.entries.map Prod.fst = run.numbers :=
  List.map_fst_zip (Nat.le_of_eq h.length_eq)

theorem map_snd_entries (h : run.IsSound) : run.entries.map Prod.snd = run.log :=
  List.map_snd_zip (Nat.le_of_eq h.length_eq.symm)

theorem nodup_entries (h : run.IsSound) : (run.entries.map Prod.fst).Nodup :=
  h.map_fst_entries ▸ h.nodup

/-- No two records have one number. -/
theorem record_unique (h : run.IsSound) {n : Nat} {r r' : UndoRecord} (hr : (n, r) ∈ run.entries)
    (hr' : (n, r') ∈ run.entries) : r = r' :=
  congrArg Prod.snd (List.inj_on_of_nodup_map h.nodup_entries hr hr' rfl)

theorem start (log : UndoLog) (e : Engine) : (start log e).IsSound where
  length_eq := List.length_range
  nodup := List.nodup_range
  recordOf n r hr := by
    obtain ⟨i, hi⟩ := List.mem_iff_getElem?.mp hr
    obtain ⟨hn, hlog⟩ := List.getElem?_zip_eq_some.mp hi
    -- The number of a record is its place.
    obtain ⟨_, hplace⟩ := List.getElem?_eq_some_iff.mp
      (show (List.range log.length)[i]? = some n from hn)
    rw [List.getElem_range] at hplace
    exact ⟨r, hplace ▸ hlog, .refl r⟩
  recordOf_step _ hs := by cases hs
  follow _ hs := by cases hs
  pairwise := List.Pairwise.nil

theorem append (h : run.IsSound) (r : UndoRecord) : (run.after (.append r)).IsSound := by
  have hentries : (run.after (.append r)).entries = run.entries ++ [(run.appended.length, r)] :=
    List.zip_append h.length_eq
  refine ⟨by simp [after, h.length_eq], ?_, fun n r' hr' => ?_,
    fun s hs => (h.recordOf_step s hs).append r, fun s hs r' hr' => ?_, h.pairwise⟩
  · refine List.nodup_append.mpr ⟨h.nodup, List.pairwise_singleton _ _, fun n hn n' hn' => ?_⟩
    -- The new record has a number of its own, since numbers count the records so far.
    obtain rfl := List.mem_singleton.mp hn'
    rw [← h.map_fst_entries] at hn
    obtain ⟨⟨n, r'⟩, hr', rfl⟩ := List.mem_map.mp hn
    exact Nat.ne_of_lt (h.recordOf n r' hr').lt
  · rw [hentries] at hr'
    -- The old entries are as they were, and the new one is the record itself.
    rcases List.mem_append.mp hr' with hr' | hr'
    · exact (h.recordOf n r' hr').append r
    · obtain ⟨rfl, rfl⟩ := Prod.mk.inj (List.mem_singleton.mp hr')
      exact ⟨r', List.getElem?_concat_length, .refl r'⟩
  · rw [hentries] at hr'
    rcases List.mem_append.mp hr' with hr' | hr'
    · exact h.follow s hs r' hr'
    · -- No step was made under the new number yet.
      have hnumber : s.number = run.appended.length :=
        congrArg Prod.fst (List.mem_singleton.mp hr')
      exact absurd (h.recordOf_step s hs).lt (by omega)

theorem elsewhere (h : run.IsSound) (f : Engine → Engine) : (run.after (.elsewhere f)).IsSound := by
  have hsteps : (run.after (.elsewhere f)).steps = run.steps := by
    simp [steps, after, UndoEvent.step?]
  exact ⟨h.length_eq, h.nodup, h.recordOf, hsteps ▸ h.recordOf_step, hsteps ▸ h.follow,
    hsteps ▸ h.pairwise⟩

/-- A run stays sound when it goes through records, if the records that remain come of those that it
had and follow the new steps. -/
theorem through (h : run.IsSound) {run' : UndoRun} (op : RecordOp) (rs : List (Nat × UndoRecord))
    (bs : List UInt8) (hrs : ∀ entry ∈ rs, entry ∈ run.entries) (hnodup : (rs.map Prod.fst).Nodup)
    (hlength : run'.numbers.length = run'.log.length)
    (hnumbers : run'.numbers.Sublist run.numbers) (happended : run'.appended = run.appended)
    (hsteps : run'.steps = run.steps ++ op.through rs bs run.engine)
    (hkept : ∀ n r', (n, r') ∈ run'.entries →
      (∃ r, (n, r) ∈ run.entries ∧ r.Becomes r') ∧
        ∀ s ∈ op.through rs bs run.engine, s.number = n → s.IsFollowedBy r') : run'.IsSound := by
  -- A step is made on a record that was in the log before.
  have hentry : ∀ s ∈ op.through rs bs run.engine, (s.number, s.record) ∈ run.entries :=
    fun s hs => hrs _ (RecordOp.mem_of_mem_through hs).2
  have hrecordOf : ∀ {n r}, run.IsRecordOf n r → run'.IsRecordOf n r := by
    intro n r hr
    unfold IsRecordOf
    rw [happended]
    exact hr
  refine ⟨hlength, h.nodup.sublist hnumbers, fun n r' hr' => ?_, fun s hs => ?_,
    fun s hs r' hr' => ?_, ?_⟩
  · -- What a record has become goes back to what was appended.
    obtain ⟨⟨r, hr, hbecomes⟩, -⟩ := hkept n r' hr'
    obtain ⟨r₀, hr₀, hbecomes₀⟩ := h.recordOf n r hr
    exact hrecordOf ⟨r₀, hr₀, hbecomes₀.trans hbecomes⟩
  · -- Old steps were on records, and the new ones are on entries of the log.
    rw [hsteps] at hs
    rcases List.mem_append.mp hs with hs | hs
    · exact hrecordOf (h.recordOf_step s hs)
    · exact hrecordOf (h.recordOf _ _ (hentry s hs))
  · -- What an old step has left is followed further; what a new one has left is what stays.
    obtain ⟨⟨r, hr, hbecomes⟩, hnew⟩ := hkept s.number r' hr'
    rw [hsteps] at hs
    rcases List.mem_append.mp hs with hs | hs
    · have hfollow := h.follow s hs r hr
      exact ⟨hfollow.op_ne, hfollow.becomes.trans hbecomes⟩
    · exact hnew s hs rfl
  · rw [hsteps]
    refine List.pairwise_append.mpr ⟨h.pairwise, ?_, fun a ha b hb hnumber => ?_⟩
    · -- The new steps are all of different records.
      exact (List.pairwise_map.mp (RecordOp.nodup_through hnodup)).imp fun hne hnumber =>
        absurd hnumber hne
    · -- A step that comes later finds what the earlier one of its number has left.
      exact h.follow a ha b.record (hnumber ▸ hentry b hb)

theorem writeRedo (h : run.IsSound) (bs : List UInt8) : (run.after (.writeRedo bs)).IsSound := by
  refine h.through .writeRedo run.entries bs (fun _ hentry => hentry) h.nodup_entries h.length_eq
    (List.Sublist.refl _) rfl (run.steps_note _) fun n r hr => ⟨⟨r, hr, .refl r⟩, ?_⟩
  rintro s hs rfl
  obtain ⟨hop, hentry⟩ := RecordOp.mem_of_mem_through hs
  refine ⟨by rw [hop]; decide, ?_⟩
  rw [RecordStep.outcome, hop, RecordOp.record_on_writeRedo, h.record_unique hr hentry]
  exact .refl _

theorem commit (h : run.IsSound) : (run.after .commit).IsSound := by
  -- After a commit the entries are what the steps have left.
  have hentries : (run.after .commit).entries =
      (RecordOp.commit.through run.entries [] run.engine).map
        fun s => (s.number, s.outcome.record) := by
    rw [RecordOp.records_through_commit, h.map_fst_entries, h.map_snd_entries]
    rfl
  have hnodup : ((RecordOp.commit.through run.entries [] run.engine).map RecordStep.number).Nodup :=
    RecordOp.nodup_through h.nodup_entries
  refine h.through .commit run.entries [] (fun _ hentry => hentry) h.nodup_entries
    (h.length_eq.trans (length_commit run.log run.engine).symm) (List.Sublist.refl _) rfl
    (run.steps_note _) fun n r' hr' => ?_
  -- A record that remains is what the step of its number has left.
  rw [hentries] at hr'
  obtain ⟨s, hs, hsame⟩ := List.mem_map.mp hr'
  obtain ⟨rfl, rfl⟩ := Prod.mk.inj hsame
  obtain ⟨hop, hentry⟩ := RecordOp.mem_of_mem_through hs
  refine ⟨⟨s.record, hentry, RecordOp.becomes_on _ _ _ _⟩, fun s' hs' hnumber => ?_⟩
  obtain rfl := List.inj_on_of_nodup_map hnodup hs' hs hnumber
  exact ⟨by rw [hop]; decide, .refl _⟩

theorem rollbackTo (h : run.IsSound) (position : Nat) :
    (run.after (.rollbackTo position)).IsSound := by
  -- After going back only the entries up to the position remain.
  have hentries : (run.after (.rollbackTo position)).entries = run.entries.take position :=
    List.take_zipWith.symm
  have hsplit : (run.entries.take position ++ run.entries.drop position).map Prod.fst =
      run.numbers := by rw [List.take_append_drop, h.map_fst_entries]
  rw [List.map_append] at hsplit
  obtain ⟨-, hdropped, hapart⟩ := List.nodup_append.mp (hsplit ▸ h.nodup)
  refine h.through .rollback (run.entries.drop position).reverse []
    (fun _ hentry => List.mem_of_mem_drop (List.mem_reverse.mp hentry)) ?_ ?_
    (List.take_sublist _ _) rfl (run.steps_note _) fun n r hr => ?_
  · -- Those behind it were gone through, each one once.
    rw [List.map_reverse]
    exact List.nodup_reverse.mpr hdropped
  · simp [after, UndoLog.rollbackTo, note, h.length_eq]
  · rw [hentries] at hr
    refine ⟨⟨r, List.mem_of_mem_take hr, .refl r⟩, fun s hs hnumber => ?_⟩
    -- The records that remain are others than those gone through.
    have hentry := List.mem_reverse.mp (RecordOp.mem_of_mem_through hs).2
    exact absurd hnumber.symm (hapart n (List.mem_map_of_mem (f := Prod.fst) hr) s.number
      (List.mem_map_of_mem (f := Prod.fst) hentry))

theorem after (h : run.IsSound) (c : UndoCall) : (run.after c).IsSound := by
  cases c with
  | append r => exact h.append r
  | writeRedo bs => exact h.writeRedo bs
  | commit => exact h.commit
  | rollbackTo position => exact h.rollbackTo position
  | elsewhere f => exact h.elsewhere f

end IsSound

/-- The events of a call lead to the engine after it. -/
theorem lead_after (h : run.IsSound) (hlead : UndoEvent.Lead e run.events run.engine)
    (c : UndoCall) : UndoEvent.Lead e (run.after c).events (run.after c).engine := by
  cases c with
  | append r => exact hlead
  -- The calls on the whole log go through it from the start; going back goes through its end.
  | writeRedo bs =>
    have hnext := UndoEvent.lead_writeRedo run.entries bs run.engine
    rw [h.map_snd_entries] at hnext
    exact hlead.append hnext
  | commit =>
    have hnext := UndoEvent.lead_commit run.entries [] run.engine
    rw [h.map_snd_entries] at hnext
    exact hlead.append hnext
  | rollbackTo position =>
    have hnext := UndoEvent.lead_rollback (run.entries.drop position).reverse [] run.engine
    rw [List.map_reverse, List.map_drop, h.map_snd_entries] at hnext
    exact hlead.append hnext
  | elsewhere f => exact hlead.append rfl

theorem sound_and_lead (h : run.IsSound) (hlead : UndoEvent.Lead e run.events run.engine)
    (calls : List UndoCall) :
    (calls.foldl after run).IsSound ∧
      UndoEvent.Lead e (calls.foldl after run).events (calls.foldl after run).engine := by
  induction calls generalizing run with
  | nil => exact ⟨h, hlead⟩
  | cons c rest ih => exact ih (h.after c) (lead_after h hlead c)

end UndoRun

/-! ## Finished logs -/

namespace UndoLog

variable {log : UndoLog} {e : Engine}

theorem isFinished_of_mem_commit {r : UndoRecord} (h : r ∈ (log.commit e).1) :
    r.isFinished = true := by
  induction log generalizing e with
  | nil => cases h
  | cons first rest ih =>
    rcases List.mem_cons.mp h with rfl | h
    · exact RecordOp.isFinished_on (by decide : RecordOp.commit ≠ .writeRedo) first [] e
    · exact ih h

theorem commit_of_finished (h : ∀ r ∈ log, r.isFinished = true) (e : Engine) :
    log.commit e = (log, e) := by
  induction log with
  | nil => rfl
  | cons r rest ih =>
    obtain ⟨hfirst, hrest⟩ := List.forall_mem_cons.mp h
    rw [commit, UndoRecord.commit, if_pos hfirst]
    simp only [ih hrest]

theorem revertAll_of_finished (h : ∀ r ∈ log, r.isFinished = true) (e : Engine) :
    revertAll log e = (0, e) := by
  induction log with
  | nil => rfl
  | cons r rest ih =>
    obtain ⟨hfirst, hrest⟩ := List.forall_mem_cons.mp h
    rw [revertAll, UndoRecord.rollback, if_pos hfirst]
    simp [ih hrest, hfirst]

theorem writeRedo_of_finished (h : ∀ r ∈ log, r.isFinished = true) (bs : List UInt8) (e : Engine) :
    (writeRedo log).runOn (bs, e) = (.ok 0, bs, e) := by
  induction log with
  | nil => rfl
  | cons r rest ih =>
    obtain ⟨hfirst, hrest⟩ := List.forall_mem_cons.mp h
    rw [writeRedo, runOn_bind, r.runOn_writeRedo, if_pos hfirst]
    simp [ih hrest]

/-- Whatever a log is called for, and whatever else is done to the engine in between, the log itself
does nothing to it but the steps of its records. A record never becomes anything but itself in another
state, and not even that once its write is finished: neither in the log nor from step to step, where
no step follows a rollback. At most one step of a record changes a map, and no map but its own; a step
that finds the write finished changes nothing and writes nothing. A commit finishes all writes, after
which neither a commit nor a rollback nor a writing of redo does anything, whatever has happened to
the engine; a rollback leaves no record. -/
theorem finishes_each_write_once (log : UndoLog) (e : Engine) (calls : List UndoCall) :
    let run := calls.foldl UndoRun.after (.start log e)
    UndoEvent.Lead e run.events run.engine ∧ run.numbers.Nodup ∧
      run.entries.map Prod.snd = run.log ∧ (∀ n r, (n, r) ∈ run.entries → run.IsRecordOf n r) ∧
      (∀ s ∈ run.steps, run.IsRecordOf s.number s.record ∧
        (∀ r, (s.number, r) ∈ run.entries → s.IsFollowedBy r) ∧
        (∀ name, name ≠ s.record.map →
          s.outcome.engine.maps.get? name = s.engine.maps.get? name) ∧
        (s.record.isFinished = true → s.outcome = ⟨.ok 0, s.record, s.bytes, s.engine⟩)) ∧
      (run.steps.Pairwise fun a b => a.number = b.number →
        a.IsFollowedBy b.record ∧ (a.ChangesMaps → ¬b.ChangesMaps)) ∧
      (run.log.rollbackTo 0 run.engine).2.1 = [] ∧
      let committed := (run.log.commit run.engine).1
      ∀ e', committed.commit e' = (committed, e') ∧
        (∀ position, committed.rollbackTo position e' = (0, committed.take position, e')) ∧
          ∀ bs, (writeRedo committed).runOn (bs, e') = (.ok 0, bs, e') := by
  intro run
  obtain ⟨hsound, hlead⟩ := UndoRun.sound_and_lead (UndoRun.IsSound.start log e) rfl calls
  refine ⟨hlead, hsound.nodup, hsound.map_snd_entries, hsound.recordOf, fun s hs => ?_, ?_, rfl, ?_⟩
  · -- All that holds of a single step follows from how the run came about.
    exact ⟨hsound.recordOf_step s hs, hsound.follow s hs, fun _ hname =>
      RecordOp.get?_maps_on hname, RecordStep.outcome_of_isFinished⟩
  · exact hsound.pairwise.imp fun hfollow hnumber =>
      ⟨hfollow hnumber, (hfollow hnumber).not_changesMaps⟩
  · -- After a commit no record is left to be finished, and nothing is done any more.
    intro committed e'
    have hfinished : ∀ r ∈ committed, r.isFinished = true :=
      fun r hr => isFinished_of_mem_commit hr
    refine ⟨commit_of_finished hfinished e', fun position => ?_,
      fun bs => writeRedo_of_finished hfinished bs e'⟩
    have hdropped : ∀ r ∈ (committed.drop position).reverse, r.isFinished = true := fun r hr =>
      hfinished r (List.mem_of_mem_drop (List.mem_reverse.mp hr))
    rw [rollbackTo, revertAll_of_finished hdropped]

/-- A write is made final, its map is dropped, and the second commit finds the write finished. -/
theorem finishes_each_write_once_of_dropped_map :
    let r := UndoRecord.ofWrite "accounts" (.int 7) none (.written ⟨1⟩ (some .null) none)
    let m := ((VersionMap.empty "accounts" .int64 .text).put r.key r.written).2
    let e : Engine := { Engine.inMemory with maps := Table.empty.insert "accounts" m }
    let drop (e : Engine) : Engine := ((Engine.dropMap "accounts").runOn e).2
    let run := [UndoCall.commit, .elsewhere drop, .commit].foldl UndoRun.after (.start [r] e)
    ∃ a b, run.steps = [a, b] ∧ a.number = b.number ∧ a.outcome.record.isFinished = true ∧
      b.record = a.outcome.record ∧ b.outcome = ⟨.ok 0, b.record, b.bytes, b.engine⟩ := by
  intro r m e drop run
  obtain ⟨-, -, -, -, hsteps, hpairwise, -⟩ :=
    finishes_each_write_once [r] e [.commit, .elsewhere drop, .commit]
  let a : RecordStep := ⟨.commit, 0, r, [], e⟩
  let b : RecordStep := ⟨.commit, 0, (r.commit e).1, [], drop (r.commit e).2⟩
  -- The second commit finds what the first one has left, with the map dropped in between.
  have hrun : run.steps = [a, b] := rfl
  change run.steps.Pairwise _ at hpairwise
  rw [hrun] at hpairwise
  have hfinished : a.outcome.record.isFinished = true := rfl
  have hfollow := ((List.pairwise_cons.mp hpairwise).1 b List.mem_cons_self rfl).1
  have hsame : b.record = a.outcome.record := hfollow.becomes.eq_of_isFinished hfinished
  have hmem : b ∈ run.steps := hrun ▸ List.mem_cons_of_mem a List.mem_cons_self
  exact ⟨a, b, hrun, rfl, hfinished, hsame, (hsteps b hmem).2.2.2 (hsame ▸ hfinished)⟩

end UndoLog

end TxnStore
