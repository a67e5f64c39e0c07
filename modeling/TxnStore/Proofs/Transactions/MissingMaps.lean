import TxnStore.Proofs.Recovery.Footing

/-!
# Writes whose maps are missing

The record of a write has the name of its map, and the map is looked up when the write is finished.
Where no map has the name then, the record is passed over. A transaction ends in every way as if it
had not made the writes whose maps are missing; they are only counted.
-/

namespace TxnStore

open TxnStore.Action

/-! ## Engines that differ in one log -/

/-- The counts without that of the skipped writes. -/
def Metrics.withoutSkips (m : Metrics) : Metrics := { m with skipped := 0 }

namespace Engine

/-- The engine without the log of a transaction and without the count of skipped writes. -/
def apartFrom (e : Engine) (t : TxnId) : Engine :=
  { e.setLog t [] with metrics := e.metrics.map Metrics.withoutSkips }

/-- Two engines that differ in the log of a transaction and in the count of skipped writes at
most. -/
def SameApart (t : TxnId) (e e' : Engine) : Prop := e.apartFrom t = e'.apartFrom t

/-- Two outcomes with the same answer and with engines that differ in the log of a transaction and
in the count of skipped writes at most. -/
def EndsAlike {α : Type} (t : TxnId) (a b : Except StoreError α × Engine) : Prop :=
  a.1 = b.1 ∧ SameApart t a.2 b.2

theorem EndsAlike.map {α β : Type} {t : TxnId} {a b : Except StoreError α × Engine}
    (h : EndsAlike t a b) (f : α → β) : EndsAlike t (a.1.map f, a.2) (b.1.map f, b.2) :=
  ⟨congrArg (Except.map f) h.1, h.2⟩

namespace SameApart

variable {t : TxnId} {e e' : Engine}

theorem trans {e₁ e₂ e₃ : Engine} (h₁₂ : SameApart t e₁ e₂) (h₂₃ : SameApart t e₂ e₃) :
    SameApart t e₁ e₃ :=
  Eq.trans h₁₂ h₂₃

theorem symm (h : SameApart t e e') : SameApart t e' e := Eq.symm h

/-- What does not look at the log and the count is the same. -/
theorem eq_of {α : Type} {f : Engine → α} (h : SameApart t e e')
    (hf : ∀ d : Engine, f (d.apartFrom t) = f d) : f e = f e' := by
  have hsame : e.apartFrom t = e'.apartFrom t := h
  rw [← hf e, hsame, hf]

/-- What changes neither the log nor the count may be done to both. -/
theorem map {f : Engine → Engine} (h : SameApart t e e')
    (hf : ∀ d : Engine, (f d).apartFrom t = f (d.apartFrom t)) : SameApart t (f e) (f e') := by
  have hsame : e.apartFrom t = e'.apartFrom t := h
  unfold SameApart
  rw [hf, hf, hsame]

theorem maps (h : SameApart t e e') : e.maps = e'.maps :=
  h.eq_of (f := fun d => d.maps) fun _ => rfl

theorem log (h : SameApart t e e') : e.log = e'.log :=
  h.eq_of (f := fun d => d.log) fun _ => rfl

theorem readers (h : SameApart t e e') : e.repeatableReaders = e'.repeatableReaders :=
  h.eq_of (f := fun d => d.repeatableReaders) fun _ => rfl

theorem isolation (h : SameApart t e e') :
    (e.live.get? t).map LiveTransaction.isolation =
      (e'.live.get? t).map LiveTransaction.isolation := by
  apply h.eq_of (f := fun d => (d.live.get? t).map LiveTransaction.isolation)
  intro d
  show ((d.setLog t []).live.get? t).map LiveTransaction.isolation = _
  rw [Engine.get?_live_setLog, if_pos rfl, Option.map_map]
  rfl

theorem setMaps (h : SameApart t e e') (maps : Table String VersionMap) :
    SameApart t { e with maps } { e' with maps } :=
  h.map (f := fun d => { d with maps }) fun _ => rfl

theorem setRedo (h : SameApart t e e') (log : Option RedoLog) :
    SameApart t { e with log } { e' with log } :=
  h.map (f := fun d => { d with log }) fun _ => rfl

/-- The log of the transaction may be replaced. -/
theorem setLog (e : Engine) (t : TxnId) (log : UndoLog) : SameApart t (e.setLog t log) e := by
  unfold SameApart apartFrom Engine.setLog
  simp only [Table.modify_modify]
  rfl

/-- A skipped write may be counted. -/
theorem skip (r : UndoRecord) (e : Engine) : SameApart t (r.skip e).2 e := by
  have hmetrics : (r.skip e).2.metrics.map Metrics.withoutSkips =
      e.metrics.map Metrics.withoutSkips := by
    show (e.metrics.map _).map Metrics.withoutSkips = _
    rw [Option.map_map]
    rfl
  show ({ e.setLog t [] with metrics := _ } : Engine) = _
  rw [hmetrics]
  rfl

/-- The other counts go on alike. -/
theorem count (h : SameApart t e e') {f : Metrics → Metrics}
    (hf : ∀ m, (f m).withoutSkips = f m.withoutSkips) : SameApart t (e.count f) (e'.count f) := by
  apply h.map (f := fun d => d.count f)
  intro d
  have hmetrics : (d.metrics.map f).map Metrics.withoutSkips =
      (d.metrics.map Metrics.withoutSkips).map f := by
    rw [Option.map_map, Option.map_map]
    exact congrArg (d.metrics.map ·) (funext hf)
  show ({ d.setLog t [] with metrics := (d.metrics.map f).map Metrics.withoutSkips } : Engine) = _
  rw [hmetrics]
  rfl

theorem addEstimate (h : SameApart t e e') (map : String) (bytes : UInt64) :
    SameApart t (e.addEstimate map bytes) (e'.addEstimate map bytes) := by
  apply h.map (f := fun d => d.addEstimate map bytes)
  intro d
  unfold Engine.addEstimate
  split <;> rfl

theorem finish (h : SameApart t e e') : SameApart t (e.finish t) (e'.finish t) := by
  have hisolation := h.isolation
  unfold Engine.finish
  -- Either both have the transaction, with one isolation, or neither has it.
  cases hl : e.live.get? t with
  | none =>
    cases hl' : e'.live.get? t with
    | none => exact h
    | some txn' => simp [hl, hl'] at hisolation
  | some txn =>
    cases hl' : e'.live.get? t with
    | none => simp [hl, hl'] at hisolation
    | some txn' =>
      obtain hsame : txn.isolation = txn'.isolation := by simpa [hl, hl'] using hisolation
      -- Without the transaction, it does not matter what log it had.
      have hlive : e.live.erase t = e'.live.erase t := by
        apply h.eq_of (f := fun d => d.live.erase t)
        intro d
        exact Table.erase_modify d.live t _
      simp only [hsame, hlive, h.readers]
      apply h.map (f := fun d => { d with live := e'.live.erase t, repeatableReaders := _ })
      intro d
      simp only [apartFrom, Engine.setLog, Table.modify_erase]

end SameApart

end Engine

open Engine

/-! ## Records whose maps are missing -/

section

variable {t : TxnId} {e e' : Engine}

namespace UndoRecord

theorem commit_alike (h : SameApart t e e') (r : UndoRecord) :
    (r.commit e).1 = (r.commit e').1 ∧ SameApart t (r.commit e).2 (r.commit e').2 := by
  have hreaders : e.hasRepeatableReaders = e'.hasRepeatableReaders := h.eq_of fun _ => rfl
  unfold commit
  rw [← h.maps, hreaders]
  split
  · exact ⟨rfl, h⟩
  · cases e.maps.get? r.map with
    | none => exact ⟨rfl, (SameApart.skip r e).trans (h.trans (SameApart.skip r e').symm)⟩
    | some m => exact ⟨rfl, h.setMaps _⟩

theorem rollback_alike (h : SameApart t e e') (r : UndoRecord) :
    (r.rollback e).1 = (r.rollback e').1 ∧ SameApart t (r.rollback e).2 (r.rollback e').2 := by
  unfold rollback
  rw [← h.maps]
  split
  · exact ⟨rfl, h⟩
  · cases e.maps.get? r.map with
    | none => exact ⟨rfl, (SameApart.skip r e).trans (h.trans (SameApart.skip r e').symm)⟩
    | some m => exact ⟨rfl, h.setMaps _⟩

theorem writeRedo_alike (h : SameApart t e e') (r : UndoRecord) (bs : List UInt8) :
    let a := r.writeRedo.runOn (bs, e)
    let b := r.writeRedo.runOn (bs, e')
    a.1 = b.1 ∧ a.2.1 = b.2.1 ∧ SameApart t a.2.2 b.2.2 := by
  simp only [runOn_writeRedo, ← h.maps]
  split
  · -- The maps are the same, and nothing else decides about the bytes.
    exact ⟨rfl, rfl, h⟩
  · cases e.maps.get? r.map with
    | none => exact ⟨rfl, rfl, h⟩
    | some m =>
      simp only
      split
      · exact ⟨rfl, rfl, h⟩
      · exact ⟨rfl, rfl, h.addEstimate r.map _⟩

/-- The write of a record is not finished yet, and there is no map of its name. -/
def IsMissing (maps : Table String VersionMap) (r : UndoRecord) : Prop :=
  r.isFinished = false ∧ maps.contains r.map = false

variable {r : UndoRecord}

theorem IsMissing.get? (h : r.IsMissing e.maps) : e.maps.get? r.map = none := by
  have hmissing := h.2
  rwa [Table.contains, Option.isSome_eq_false_iff, Option.isNone_iff_eq_none] at hmissing

theorem IsMissing.commit (h : r.IsMissing e.maps) : r.commit e = r.skip e := by
  rw [UndoRecord.commit, h.1, h.get?]
  rfl

theorem IsMissing.rollback (h : r.IsMissing e.maps) : r.rollback e = r.skip e := by
  rw [UndoRecord.rollback, h.1, h.get?]
  rfl

theorem IsMissing.writeRedo (h : r.IsMissing e.maps) (bs : List UInt8) :
    r.writeRedo.runOn (bs, e) = (.ok 0, bs, e) := by
  rw [runOn_writeRedo, h.1, h.get?]
  rfl

end UndoRecord

/-- The records of a list that are not kept are those of missing maps. Something may go with each
record. -/
def KeepsPresent {α : Type} (maps : Table String VersionMap) (keep : UndoRecord × α → Bool)
    (l : List (UndoRecord × α)) : Prop :=
  ∀ w ∈ l, keep w = false → w.1.IsMissing maps

/-- The rest of a list, over maps of the same names. -/
theorem KeepsPresent.tail {α : Type} {maps maps' : Table String VersionMap}
    {keep : UndoRecord × α → Bool} {w : UndoRecord × α} {rest : List (UndoRecord × α)}
    (h : KeepsPresent maps keep (w :: rest))
    (hsame : ∀ name, maps'.contains name = maps.contains name) : KeepsPresent maps' keep rest := by
  intro v hv hout
  obtain ⟨hpending, hmissing⟩ := h v (List.mem_cons_of_mem _ hv) hout
  exact ⟨hpending, (hsame v.1.map).trans hmissing⟩

namespace UndoLog

variable {α : Type} {keep : UndoRecord × α → Bool} {l : List (UndoRecord × α)}

theorem commit_cons (r : UndoRecord) (rest : UndoLog) (e : Engine) :
    commit (r :: rest) e = ((r.commit e).1 :: (commit rest (r.commit e).2).1,
      (commit rest (r.commit e).2).2) := rfl

theorem revertAll_cons (r : UndoRecord) (rest : List UndoRecord) (e : Engine) :
    revertAll (r :: rest) e =
      (if !r.isFinished && (r.rollback e).1.state = .reverted then
        (revertAll rest (r.rollback e).2).1 + 1 else (revertAll rest (r.rollback e).2).1,
      (revertAll rest (r.rollback e).2).2) := rfl

/-- Making writes final does the same without those whose maps are missing. -/
theorem commit_leavingOut (h : SameApart t e e')
    (hkeep : KeepsPresent e.maps keep l) :
    let a := commit (l.map Prod.fst) e
    let b := commit ((l.filter keep).map Prod.fst) e'
    applied a.1 = applied b.1 ∧ SameApart t a.2 b.2 := by
  -- The engines vary: each record acts on what those before it have left.
  induction l generalizing e e' with
  | nil => exact ⟨rfl, h⟩
  | cons w rest ih =>
    have hrest := hkeep.tail (contains_commit w.1 e)
    cases hw : keep w with
    | true =>
      -- The record is kept, and it does the same on both sides.
      obtain ⟨hrecord, hengine⟩ := UndoRecord.commit_alike h w.1
      obtain ⟨happlied, hlast⟩ := ih hengine hrest
      rw [List.filter_cons_of_pos hw, List.map_cons, List.map_cons, commit_cons, commit_cons]
      refine ⟨?_, hlast⟩
      rw [applied, applied, List.countP_cons, List.countP_cons, hrecord]
      exact congrArg (· + _) happlied
    | false =>
      -- The record is left out; its map is missing, so that it is passed over where it stands.
      have hskip := (hkeep w List.mem_cons_self hw).commit
      have hengine : SameApart t (w.1.commit e).2 e' := hskip ▸ (SameApart.skip w.1 e).trans h
      obtain ⟨happlied, hlast⟩ := ih hengine hrest
      have hstate : ¬ (w.1.commit e).1.state = .applied := by simp [hskip, UndoRecord.skip]
      rw [List.filter_cons_of_neg (by simp [hw]), List.map_cons, commit_cons]
      refine ⟨?_, hlast⟩
      rw [applied, List.countP_cons_of_neg (by simpa using hstate)]
      exact happlied

/-- Undoing writes does the same without those whose maps are missing. -/
theorem revertAll_leavingOut (h : SameApart t e e')
    (hkeep : KeepsPresent e.maps keep l) :
    let a := revertAll (l.map Prod.fst) e
    let b := revertAll ((l.filter keep).map Prod.fst) e'
    a.1 = b.1 ∧ SameApart t a.2 b.2 := by
  induction l generalizing e e' with
  | nil => exact ⟨rfl, h⟩
  | cons w rest ih =>
    have hrest := hkeep.tail (contains_rollback w.1 e)
    cases hw : keep w with
    | true =>
      -- As before: what is kept does the same, what is left out does nothing.
      obtain ⟨hrecord, hengine⟩ := UndoRecord.rollback_alike h w.1
      obtain ⟨hcount, hlast⟩ := ih hengine hrest
      rw [List.filter_cons_of_pos hw, List.map_cons, List.map_cons, revertAll_cons, revertAll_cons]
      exact ⟨by rw [hcount, hrecord], hlast⟩
    | false =>
      have hskip := (hkeep w List.mem_cons_self hw).rollback
      have hengine : SameApart t (w.1.rollback e).2 e' := hskip ▸ (SameApart.skip w.1 e).trans h
      obtain ⟨hcount, hlast⟩ := ih hengine hrest
      have hstate : ¬ (w.1.rollback e).1.state = .reverted := by simp [hskip, UndoRecord.skip]
      rw [List.filter_cons_of_neg (by simp [hw]), List.map_cons, revertAll_cons,
        if_neg (by simp [hstate])]
      exact ⟨hcount, hlast⟩

/-- Nothing is logged for writes whose maps are missing. -/
theorem writeRedo_leavingOut (h : SameApart t e e')
    (hkeep : KeepsPresent e.maps keep l) (bs : List UInt8) :
    let a := (writeRedo (l.map Prod.fst)).runOn (bs, e)
    let b := (writeRedo ((l.filter keep).map Prod.fst)).runOn (bs, e')
    a.1 = b.1 ∧ a.2.1 = b.2.1 ∧ SameApart t a.2.2 b.2.2 := by
  induction l generalizing bs e e' with
  | nil => exact ⟨rfl, rfl, h⟩
  | cons w rest ih =>
    have hrest := hkeep.tail fun _ => rfl
    cases hw : keep w with
    | true =>
      -- The writing may stop at a record that is kept, with the same error on both sides.
      obtain ⟨hanswer, hbytes, hengine⟩ := UndoRecord.writeRedo_alike h w.1 bs
      obtain ⟨dirty, hmaps⟩ := w.1.writeRedo_eq bs e
      rw [List.filter_cons_of_pos hw]
      simp only [List.map_cons, writeRedo, runOn_bind]
      rcases ha : w.1.writeRedo.runOn (bs, e) with ⟨answer, bs₁, e₁⟩
      rcases hb : w.1.writeRedo.runOn (bs, e') with ⟨answer', bs₁', e₁'⟩
      rw [ha, hb] at hanswer hbytes hengine
      rw [ha] at hmaps
      obtain rfl : answer = answer' := hanswer
      obtain rfl : bs₁ = bs₁' := hbytes
      obtain rfl : e₁ = { e with dirty } := hmaps
      cases answer with
      | error err => exact ⟨rfl, rfl, hengine⟩
      | ok n =>
        obtain ⟨hanswer₂, hbytes₂, hengine₂⟩ := ih hengine hrest bs₁
        simp only
        rcases ha₂ : (writeRedo (rest.map Prod.fst)).runOn (bs₁, { e with dirty }) with
          ⟨answer₂, bs₂, e₂⟩
        rcases hb₂ : (writeRedo ((rest.filter keep).map Prod.fst)).runOn (bs₁, e₁') with
          ⟨answer₂', bs₂', e₂'⟩
        rw [ha₂, hb₂] at hanswer₂ hbytes₂ hengine₂
        obtain rfl : answer₂ = answer₂' := hanswer₂
        cases answer₂ <;> exact ⟨rfl, hbytes₂, hengine₂⟩
    | false =>
      -- What is left out adds no bytes.
      have hskip := (hkeep w List.mem_cons_self hw).writeRedo bs
      obtain ⟨hanswer, hbytes, hengine⟩ := ih h hrest bs
      rw [List.filter_cons_of_neg (by simp [hw])]
      simp only [List.map_cons, writeRedo, runOn_bind, hskip, Nat.zero_add]
      rcases ha : (writeRedo (rest.map Prod.fst)).runOn (bs, e) with ⟨answer, bs₁, e₁⟩
      rw [ha] at hanswer hbytes hengine
      cases answer <;> exact ⟨hanswer, hbytes, hengine⟩

end UndoLog

/-! ## The ends of transactions -/

namespace Engine

variable {α : Type} {keep : UndoRecord × α → Bool} {l : List (UndoRecord × α)}

theorem logCommit_alike (h : SameApart t e e') (payload : List UInt8) :
    EndsAlike t ((logCommit t payload).runOn e) ((logCommit t payload).runOn e') := by
  simp only [runOn_logCommit, ← h.log]
  cases e.log with
  | none => exact ⟨rfl, h⟩
  | some log =>
    simp only
    rcases (RedoLog.append t payload).runOn log with ⟨err | lsn, log'⟩
    · exact ⟨rfl, h.setRedo _⟩
    · exact ⟨rfl, (h.setRedo _).count fun _ => rfl⟩

theorem logWrites_leavingOut (h : SameApart t e e')
    (hkeep : KeepsPresent e.maps keep l) :
    EndsAlike t ((logWrites t (l.map Prod.fst)).runOn e)
      ((logWrites t ((l.filter keep).map Prod.fst)).runOn e') := by
  obtain ⟨hanswer, hbytes, hengine⟩ := UndoLog.writeRedo_leavingOut h hkeep []
  unfold logWrites
  simp only [runOn_bind, runOn_get]
  rcases ha : (UndoLog.writeRedo (l.map Prod.fst)).runOn ([], e) with ⟨answer, bs, e₁⟩
  rcases hb : (UndoLog.writeRedo ((l.filter keep).map Prod.fst)).runOn ([], e') with
    ⟨answer', bs', e₁'⟩
  rw [ha, hb] at hanswer hbytes hengine
  obtain rfl : answer = answer' := hanswer
  obtain rfl : bs = bs' := hbytes
  simp only [runOn_set, runOn_ofExcept]
  cases answer with
  | error err => exact ⟨rfl, hengine⟩
  -- The bytes are the same, and so is what becomes of them in the log.
  | ok n =>
    simp only
    split
    · exact logCommit_alike hengine bs
    · exact ⟨rfl, hengine⟩

theorem committed_leavingOut (h : SameApart t e e')
    (hkeep : KeepsPresent e.maps keep l) :
    SameApart t (e.committed t (l.map Prod.fst))
      (e'.committed t ((l.filter keep).map Prod.fst)) := by
  obtain ⟨happlied, hengine⟩ := UndoLog.commit_leavingOut h hkeep
  unfold committed
  simp only [happlied]
  exact hengine.finish.count fun _ => rfl

theorem revertAll_reverse_leavingOut (h : SameApart t e e')
    (hkeep : KeepsPresent e.maps keep l) :
    let a := UndoLog.revertAll (l.map Prod.fst).reverse e
    let b := UndoLog.revertAll ((l.filter keep).map Prod.fst).reverse e'
    a.1 = b.1 ∧ SameApart t a.2 b.2 := by
  rw [← List.map_reverse, ← List.map_reverse, ← List.filter_reverse]
  exact UndoLog.revertAll_leavingOut h fun w hw => hkeep w (List.mem_reverse.mp hw)

theorem aborted_leavingOut (h : SameApart t e e')
    (hkeep : KeepsPresent e.maps keep l) :
    SameApart t (e.aborted t (l.map Prod.fst)) (e'.aborted t ((l.filter keep).map Prod.fst)) := by
  obtain ⟨hcount, hengine⟩ := revertAll_reverse_leavingOut h hkeep
  unfold aborted UndoLog.rollbackTo
  simp only [List.drop_zero, hcount]
  exact hengine.finish.count fun _ => rfl

variable {txn : LiveTransaction}

theorem get?_live_setLog_self (hl : e.live.get? t = some txn) (log : UndoLog) :
    (e.setLog t log).live.get? t = some { txn with log } := by
  rw [get?_live_setLog, if_pos rfl, hl]
  rfl

/-- A commit does the same without the writes whose maps are missing. -/
theorem commit_leavingOut (hl : e.live.get? t = some txn) (hlog : l.map Prod.fst = txn.log)
    (hkeep : KeepsPresent e.maps keep l) :
    EndsAlike t ((commit t).runOn e)
      ((commit t).runOn (e.setLog t ((l.filter keep).map Prod.fst))) := by
  have hsame := (SameApart.setLog e t ((l.filter keep).map Prod.fst)).symm
  obtain ⟨hanswer, hengine⟩ := logWrites_leavingOut hsame hkeep
  -- Logging leaves the maps as they are.
  have hmaps := (runOn_logWrites_sameWork t (l.map Prod.fst) e).maps
  rw [runOn_commit, runOn_commit, hl, get?_live_setLog_self hl]
  simp only [← hlog]
  -- Both are logged alike, and what follows depends on the maps, which are unchanged.
  rcases ha : (logWrites t (l.map Prod.fst)).runOn e with ⟨answer, e₁⟩
  rcases hb : (logWrites t ((l.filter keep).map Prod.fst)).runOn
    (e.setLog t ((l.filter keep).map Prod.fst)) with ⟨answer', e₁'⟩
  rw [ha, hb] at hanswer hengine
  rw [ha] at hmaps
  obtain rfl : answer = answer' := hanswer
  have hkeep₁ : KeepsPresent e₁.maps keep l := by
    rw [show e₁.maps = e.maps from hmaps]
    exact hkeep
  cases answer with
  | ok u => exact ⟨rfl, committed_leavingOut hengine hkeep₁⟩
  | error err => exact ⟨rfl, aborted_leavingOut hengine hkeep₁⟩

/-- A rollback does the same without the writes whose maps are missing. -/
theorem rollback_leavingOut (hl : e.live.get? t = some txn) (hlog : l.map Prod.fst = txn.log)
    (hkeep : KeepsPresent e.maps keep l) :
    EndsAlike t ((rollback t).runOn e)
      ((rollback t).runOn (e.setLog t ((l.filter keep).map Prod.fst))) := by
  have hsame := (SameApart.setLog e t ((l.filter keep).map Prod.fst)).symm
  rw [runOn_rollback, runOn_rollback, hl, get?_live_setLog_self hl]
  simp only [← hlog]
  exact ⟨rfl, aborted_leavingOut hsame hkeep⟩

/-- Going back to a savepoint does the same without the writes whose maps are missing, if those
before the savepoint are not counted either. -/
theorem rollbackTo_leavingOut (hl : e.live.get? t = some txn) (hlog : l.map Prod.fst = txn.log)
    (hkeep : KeepsPresent e.maps keep l) {n : Nat} (hn : n ≤ txn.log.length) :
    EndsAlike t ((rollbackTo t n).runOn e)
      ((rollbackTo t ((l.take n).filter keep).length).runOn
        (e.setLog t ((l.filter keep).map Prod.fst))) := by
  have hsame := (SameApart.setLog e t ((l.filter keep).map Prod.fst)).symm
  -- What is kept of the log is what is kept of its two parts.
  have hparts : l.filter keep = (l.take n).filter keep ++ (l.drop n).filter keep := by
    rw [← List.filter_append, List.take_append_drop]
  have hundone : ((l.filter keep).map Prod.fst).drop ((l.take n).filter keep).length =
      ((l.drop n).filter keep).map Prod.fst := by
    rw [hparts, List.map_append, List.drop_left' (List.length_map _)]
  have hfits : ((l.take n).filter keep).length ≤ ((l.filter keep).map Prod.fst).length := by
    rw [List.length_map, hparts, List.length_append]
    exact Nat.le_add_right _ _
  -- Only the records behind the position are undone.
  obtain ⟨-, hengine⟩ := revertAll_reverse_leavingOut (l := l.drop n) hsame fun w hw =>
    hkeep w (List.mem_of_mem_drop hw)
  rw [runOn_rollbackTo, runOn_rollbackTo, hl, get?_live_setLog_self hl]
  simp only
  rw [if_neg (by omega), if_neg (by omega)]
  refine ⟨rfl, ?_⟩
  -- The log of the transaction is the one thing in which the engines differ.
  unfold afterRollbackTo
  rw [hundone, ← hlog, ← List.map_drop]
  exact (SameApart.setLog _ t _).trans (hengine.trans (SameApart.setLog _ t _).symm)

end Engine

end

end TxnStore
