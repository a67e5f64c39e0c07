import TxnStore.Proofs.Transactions.Reachable

/-!
# Maps that show the same

A tombstone keeps its slot, but it shows nothing: it is read, counted and written over like an empty
slot. Engines whose maps differ in tombstones at most answer all calls of transactions alike, write
the same to their logs and go on showing the same.
-/

namespace TxnStore

open TxnStore.Action

/-! ## Views of maps -/

/-- What a map shows: all of it but its tombstones. -/
structure MapView where
  name : String
  keyCodec : Codec
  valueCodec : Codec
  rows : Int
  slot : Value → Option Version

def VersionMap.view (m : VersionMap) : MapView :=
  ⟨m.name, m.keyCodec, m.valueCodec, m.rows, fun key => withoutTombstone (m.get? key)⟩

/-- What a slot holds counts as a row unless it is a tombstone. -/
theorem isLive_eq_isSome (slot : Option Version) :
    VersionMap.isLive slot = (withoutTombstone slot).isSome := by
  cases slot with
  | none => rfl
  | some v => cases hv : v.isTombstone <;> simp [VersionMap.isLive, withoutTombstone, hv]

namespace VersionMap

variable {m m' : VersionMap}

/-- Maps show the same if all else is the same and their slots are but for tombstones. -/
theorem view_eq_of (hname : m.name = m'.name) (hkeys : m.keyCodec = m'.keyCodec)
    (hvalues : m.valueCodec = m'.valueCodec) (hrows : m.rows = m'.rows)
    (hslots : ∀ key, withoutTombstone (m.get? key) = withoutTombstone (m'.get? key)) :
    m.view = m'.view := by
  unfold view
  rw [hname, hkeys, hvalues, hrows, funext hslots]

theorem slot_eq_of_view (h : m.view = m'.view) (key : Value) :
    withoutTombstone (m.get? key) = withoutTombstone (m'.get? key) :=
  congrFun (congrArg MapView.slot h) key

theorem isLive_eq_of_view (h : m.view = m'.view) (key : Value) :
    isLive (m.get? key) = isLive (m'.get? key) := by
  rw [isLive_eq_isSome, isLive_eq_isSome, slot_eq_of_view h]

theorem size_eq_of_view (h : m.view = m'.view) : m.size = m'.size :=
  congrArg Int.toNat (congrArg MapView.rows h)

theorem view_put (h : m.view = m'.view) (key : Value) (v : Version) :
    (m.put key v).2.view = (m'.put key v).2.view := by
  -- The count changes by whether the slot held a row, which a view tells.
  refine view_eq_of (congrArg MapView.name h) (congrArg MapView.keyCodec h)
    (congrArg MapView.valueCodec h) ?_ fun j => ?_
  · have hrows : m.rows = m'.rows := congrArg MapView.rows h
    simp only [put, hrows, isLive_eq_of_view h]
  · rw [get?_put, get?_put]
    split
    · rfl
    · exact slot_eq_of_view h j

theorem view_remove (h : m.view = m'.view) (key : Value) :
    (m.remove key).2.view = (m'.remove key).2.view := by
  refine view_eq_of (congrArg MapView.name h) (congrArg MapView.keyCodec h)
    (congrArg MapView.valueCodec h) ?_ fun j => ?_
  · have hrows : m.rows = m'.rows := congrArg MapView.rows h
    simp only [remove, hrows, isLive_eq_of_view h]
  · rw [get?_remove, get?_remove]
    split
    · rfl
    · exact slot_eq_of_view h j

theorem view_dropRow (h : m.view = m'.view) : m.dropRow.view = m'.dropRow.view := by
  refine view_eq_of (congrArg MapView.name h) (congrArg MapView.keyCodec h)
    (congrArg MapView.valueCodec h) (congrArg (fun v => v.rows - 1) h) fun key => ?_
  rw [get?_dropRow, get?_dropRow]
  exact slot_eq_of_view h key

theorem view_commitTo (h : m.view = m'.view) (key : Value) (v : Version) (keep : Bool) :
    (UndoRecord.commitTo m key v keep).view = (UndoRecord.commitTo m' key v keep).view := by
  unfold UndoRecord.commitTo
  split
  · exact view_put h key v
  · split
    · exact view_put (view_dropRow h) key v
    · exact view_remove h key

theorem view_revertIn (h : m.view = m'.view) (r : UndoRecord) :
    (r.revertIn m).view = (r.revertIn m').view := by
  unfold UndoRecord.revertIn
  cases r.old? with
  | none => exact view_remove h r.key
  | some old => exact view_put h r.key (r.written.rollback old)

/-- A version that is put over what a slot shows, and undone, leaves what it showed. -/
theorem view_revertIn_put (name : String) (key : Value) {v : Version}
    (hv : v.isTombstone = false) :
    ((UndoRecord.ofWrite name key (withoutTombstone (m.get? key)) v).revertIn (m.put key v).2).view =
      m.view := by
  -- The write is a row, whatever was there before it.
  have hlive : isLive ((m.put key v).2.get? key) = true := by
    rw [get?_put, if_pos rfl]
    simp [isLive, hv]
  have hbefore := isLive_eq_isSome (m.get? key)
  rw [UndoRecord.revertIn, UndoRecord.old?_ofWrite]
  cases hslot : withoutTombstone (m.get? key) with
  | none =>
    -- The write was counted as a new row, and so is its removal.
    rw [hslot] at hbefore
    refine view_eq_of rfl rfl rfl ?_ fun j => ?_
    · show (if isLive ((m.put key v).2.get? key) then (m.put key v).2.rows - 1 else _) = m.rows
      rw [if_pos hlive]
      simp [put, hbefore, hv]
    · show withoutTombstone (((m.put key v).2.remove key).2.get? j) = _
      rw [get?_remove, get?_put]
      split
      · next hj => rw [hj, hslot]; rfl
      · rfl
  | some old =>
    -- The write was put over a row, and the row is put over the write.
    rw [hslot] at hbefore
    refine view_eq_of rfl rfl rfl ?_ fun j => ?_
    · show (if !isLive ((m.put key v).2.get? key) && _ then _ else (m.put key v).2.rows) = m.rows
      rw [hlive]
      simp [put, hbefore]
    · show withoutTombstone (((m.put key v).2.put key old).2.get? j) = _
      rw [get?_put, get?_put]
      split
      · next hj =>
        have hold : old.isTombstone = false := by
          simpa using (Option.filter_eq_some_iff.mp hslot).2
        rw [hj, hslot, withoutTombstone_some hold]
      · rfl

end VersionMap

/-- The view of the map of a name, if it is open. -/
def viewOf (maps : Table String VersionMap) (name : String) : Option MapView :=
  (maps.get? name).map VersionMap.view

theorem viewOf_insert {maps maps' : Table String VersionMap}
    (h : ∀ name, viewOf maps name = viewOf maps' name) (name : String) {m m' : VersionMap}
    (hm : m.view = m'.view) (other : String) :
    viewOf (maps.insert name m) other = viewOf (maps'.insert name m') other := by
  unfold viewOf
  rw [Table.get?_insert, Table.get?_insert]
  split
  · exact congrArg some hm
  · exact h other

/-! ## Engines that show the same -/

/-- Two engines whose maps show the same. The transactions under way are left out of account; all
else is the same. -/
structure SameShown (e e' : Engine) : Prop where
  maps : ∀ name, viewOf e.maps name = viewOf e'.maps name
  rest : { e with maps := e'.maps, live := e'.live } = e'

namespace SameShown

variable {e e' : Engine}

theorem refl (e : Engine) : SameShown e e := ⟨fun _ => rfl, rfl⟩

theorem symm (h : SameShown e e') : SameShown e' e := by
  refine ⟨fun name => (h.maps name).symm, ?_⟩
  rw [← h.rest]

theorem trans {e₁ e₂ e₃ : Engine} (h : SameShown e₁ e₂) (h' : SameShown e₂ e₃) :
    SameShown e₁ e₃ := by
  refine ⟨fun name => (h.maps name).trans (h'.maps name), ?_⟩
  rw [← h'.rest, ← h.rest]

/-- The transactions under way do not matter. -/
theorem setLive (e : Engine) (live : Table TxnId LiveTransaction) : SameShown e { e with live } :=
  ⟨fun _ => rfl, rfl⟩

/-- What looks neither at the maps nor at the transactions is the same. -/
theorem eq_of {α : Type} {f : Engine → α} (h : SameShown e e')
    (hf : ∀ (d : Engine) maps live, f { d with maps, live } = f d) : f e = f e' := by
  rw [← h.rest]
  exact (hf e e'.maps e'.live).symm

/-- What neither looks at the maps and the transactions nor changes them may be done to both. -/
theorem map {f : Engine → Engine} (h : SameShown e e')
    (hf : ∀ (d : Engine) maps live, f { d with maps, live } = { f d with maps, live }) :
    SameShown (f e) (f e') := by
  have hsame : ∀ d : Engine, (f d).maps = d.maps ∧ (f d).live = d.live := by
    intro d
    have hmaps := congrArg Engine.maps (hf d d.maps d.live)
    have hlive := congrArg Engine.live (hf d d.maps d.live)
    exact ⟨hmaps, hlive⟩
  refine ⟨fun name => ?_, ?_⟩
  · rw [(hsame e).1, (hsame e').1]
    exact h.maps name
  · rw [(hsame e').1, (hsame e').2, ← hf, h.rest]

/-- A map may be changed in both, if it shows the same then. -/
theorem setMap (h : SameShown e e') (name : String) {m m' : VersionMap} (hm : m.view = m'.view) :
    SameShown { e with maps := e.maps.insert name m } { e' with maps := e'.maps.insert name m' } :=
  ⟨viewOf_insert h.maps name hm, by rw [← h.rest]⟩

/-- The same maps are open, and they show the same. -/
theorem get?_cases (h : SameShown e e') (name : String) :
    (e.maps.get? name = none ∧ e'.maps.get? name = none) ∨
      ∃ m m', e.maps.get? name = some m ∧ e'.maps.get? name = some m' ∧ m.view = m'.view := by
  have hview := h.maps name
  unfold viewOf at hview
  cases hm : e.maps.get? name with
  -- A map with the same view stands on the other side, or there is none on either side.
  | none =>
    rw [hm] at hview
    exact .inl ⟨rfl, Option.map_eq_none_iff.mp hview.symm⟩
  | some m =>
    rw [hm] at hview
    obtain ⟨m', hm', hsame⟩ := Option.map_eq_some_iff.mp hview.symm
    exact .inr ⟨m, m', rfl, hm', hsame.symm⟩

theorem count (h : SameShown e e') (f : Metrics → Metrics) : SameShown (e.count f) (e'.count f) :=
  h.map (f := fun d => d.count f) fun _ _ _ => rfl

theorem addEstimate (h : SameShown e e') (name : String) (bytes : UInt64) :
    SameShown (e.addEstimate name bytes) (e'.addEstimate name bytes) := by
  apply h.map (f := fun d => d.addEstimate name bytes)
  intro d maps live
  unfold Engine.addEstimate
  split <;> rfl

theorem setRedo (h : SameShown e e') (log : Option RedoLog) :
    SameShown { e with log } { e' with log } :=
  h.map (f := fun d => { d with log }) fun _ _ _ => rfl

theorem log (h : SameShown e e') : e.log = e'.log :=
  h.eq_of (f := fun d => d.log) fun _ _ _ => rfl

end SameShown

/-! ## Finishing and logging writes -/

section

variable {e e' : Engine}

namespace UndoRecord

theorem rollback_shown (h : SameShown e e') (r : UndoRecord) :
    (r.rollback e).1 = (r.rollback e').1 ∧ SameShown (r.rollback e).2 (r.rollback e').2 := by
  unfold rollback
  split
  · exact ⟨rfl, h⟩
  · rcases h.get?_cases r.map with ⟨hm, hm'⟩ | ⟨m, m', hm, hm', hview⟩
    · rw [hm, hm']
      exact ⟨rfl, h.count _⟩
    · rw [hm, hm']
      exact ⟨rfl, h.setMap r.map (VersionMap.view_revertIn hview r)⟩

theorem commit_shown (h : SameShown e e') (r : UndoRecord) :
    (r.commit e).1 = (r.commit e').1 ∧ SameShown (r.commit e).2 (r.commit e').2 := by
  -- Whether a delete leaves a tombstone depends on the readers, and these are counted alike.
  have hreaders : e.hasRepeatableReaders = e'.hasRepeatableReaders := h.eq_of fun _ _ _ => rfl
  unfold commit
  split
  · exact ⟨rfl, h⟩
  · rcases h.get?_cases r.map with ⟨hm, hm'⟩ | ⟨m, m', hm, hm', hview⟩
    · rw [hm, hm']
      exact ⟨rfl, h.count _⟩
    · rw [hm, hm', hreaders]
      exact ⟨rfl, h.setMap r.map (VersionMap.view_commitTo hview r.key _ _)⟩

theorem writeRedo_shown (h : SameShown e e') (r : UndoRecord) (bs : List UInt8) :
    let a := r.writeRedo.runOn (bs, e)
    let b := r.writeRedo.runOn (bs, e')
    a.1 = b.1 ∧ a.2.1 = b.2.1 ∧ SameShown a.2.2 b.2.2 := by
  simp only [runOn_writeRedo]
  split
  · -- A finished record writes nothing.
    exact ⟨rfl, rfl, h⟩
  · rcases h.get?_cases r.map with ⟨hm, hm'⟩ | ⟨m, m', hm, hm', hview⟩
    · simp only [hm, hm']
      exact ⟨trivial, trivial, h⟩
    · -- Of the map, only its codecs matter to what is written.
      have hkeys : m.keyCodec = m'.keyCodec := congrArg MapView.keyCodec hview
      have hvalues : m.valueCodec = m'.valueCodec := congrArg MapView.valueCodec hview
      simp only [hm, hm', hkeys, hvalues]
      -- The codecs refuse the row on both sides, or the same bytes are added and counted.
      split
      · exact ⟨rfl, rfl, h⟩
      · exact ⟨rfl, rfl, h.addEstimate r.map _⟩

end UndoRecord

namespace UndoLog

theorem revertAll_shown (rs : List UndoRecord) (h : SameShown e e') :
    (revertAll rs e).1 = (revertAll rs e').1 ∧
      SameShown (revertAll rs e).2 (revertAll rs e').2 := by
  -- The engines vary: each record is undone on what those before it have left.
  induction rs generalizing e e' with
  | nil => exact ⟨rfl, h⟩
  | cons r rest ih =>
    obtain ⟨hrecord, hengine⟩ := r.rollback_shown h
    obtain ⟨hcount, hlast⟩ := ih hengine
    rw [revertAll_cons, revertAll_cons]
    exact ⟨by rw [hcount, hrecord], hlast⟩

theorem commit_shown (log : UndoLog) (h : SameShown e e') :
    (commit log e).1 = (commit log e').1 ∧ SameShown (commit log e).2 (commit log e').2 := by
  induction log generalizing e e' with
  | nil => exact ⟨rfl, h⟩
  | cons r rest ih =>
    obtain ⟨hrecord, hengine⟩ := r.commit_shown h
    obtain ⟨hlog, hlast⟩ := ih hengine
    rw [commit_cons, commit_cons]
    exact ⟨by rw [hrecord, hlog], hlast⟩

theorem writeRedo_shown (log : UndoLog) (bs : List UInt8) (h : SameShown e e') :
    let a := (writeRedo log).runOn (bs, e)
    let b := (writeRedo log).runOn (bs, e')
    a.1 = b.1 ∧ a.2.1 = b.2.1 ∧ SameShown a.2.2 b.2.2 := by
  induction log generalizing bs e e' with
  -- Nothing is written.
  | nil => exact ⟨rfl, rfl, h⟩
  | cons r rest ih =>
    obtain ⟨hanswer, hbytes, hengine⟩ := r.writeRedo_shown h bs
    simp only [writeRedo, runOn_bind]
    rcases ha : r.writeRedo.runOn (bs, e) with ⟨answer, bs₁, e₁⟩
    rcases hb : r.writeRedo.runOn (bs, e') with ⟨answer', bs₁', e₁'⟩
    rw [ha, hb] at hanswer hbytes hengine
    obtain rfl : answer = answer' := hanswer
    obtain rfl : bs₁ = bs₁' := hbytes
    -- The answers are the same, so that both go on or neither does.
    cases answer with
    | error err => exact ⟨rfl, rfl, hengine⟩
    | ok n =>
      obtain ⟨hanswer₂, hbytes₂, hengine₂⟩ := ih bs₁ hengine
      simp only
      rcases ha₂ : (writeRedo rest).runOn (bs₁, e₁) with ⟨answer₂, bs₂, e₂⟩
      rcases hb₂ : (writeRedo rest).runOn (bs₁, e₁') with ⟨answer₂', bs₂', e₂'⟩
      rw [ha₂, hb₂] at hanswer₂ hbytes₂ hengine₂
      obtain rfl : answer₂ = answer₂' := hanswer₂
      cases answer₂ <;> exact ⟨rfl, hbytes₂, hengine₂⟩

end UndoLog

namespace Engine

theorem logCommit_shown (h : SameShown e e') (t : TxnId) (payload : List UInt8) :
    ((logCommit t payload).runOn e).1 = ((logCommit t payload).runOn e').1 ∧
      SameShown ((logCommit t payload).runOn e).2 ((logCommit t payload).runOn e').2 := by
  simp only [runOn_logCommit, ← h.log]
  cases e.log with
  | none => exact ⟨rfl, h⟩
  | some log =>
    simp only
    rcases (RedoLog.append t payload).runOn log with ⟨err | lsn, log'⟩
    · exact ⟨rfl, h.setRedo _⟩
    · exact ⟨rfl, (h.setRedo _).count _⟩

theorem logWrites_shown (h : SameShown e e') (t : TxnId) (log : UndoLog) :
    ((logWrites t log).runOn e).1 = ((logWrites t log).runOn e').1 ∧
      SameShown ((logWrites t log).runOn e).2 ((logWrites t log).runOn e').2 := by
  obtain ⟨hanswer, hbytes, hengine⟩ := UndoLog.writeRedo_shown log [] h
  unfold logWrites
  simp only [runOn_bind, runOn_get]
  rcases ha : (UndoLog.writeRedo log).runOn ([], e) with ⟨answer, bs, e₁⟩
  rcases hb : (UndoLog.writeRedo log).runOn ([], e') with ⟨answer', bs', e₁'⟩
  rw [ha, hb] at hanswer hbytes hengine
  obtain rfl : answer = answer' := hanswer
  obtain rfl : bs = bs' := hbytes
  simp only [runOn_set, runOn_ofExcept]
  -- Where a record could not be encoded the log is not reached, on either side.
  cases answer with
  | error err => exact ⟨rfl, hengine⟩
  | ok n =>
    simp only
    split
    · exact logCommit_shown hengine t bs
    · exact ⟨rfl, hengine⟩

-- The frame has the same bytes, and is appended to the same log.
end Engine

end

/-! ## Calls of transactions -/

/-- Two engines whose maps show the same and in which the same transactions are under way. -/
structure Engine.Alike (e e' : Engine) : Prop where
  shown : SameShown e e'
  live : ∀ t, e.live.get? t = e'.live.get? t

/-! ### What is decided by a slot -/

section

variable {slot : Option Version} {t : TxnId}

/-- A plain tombstone is written over like an empty slot. -/
theorem Engine.versionToWrite_withoutTombstone (hplain : ∀ v, slot = some v → v.IsPlain)
    (name : String) (payload : Option Value) :
    versionToWrite t name payload (withoutTombstone slot) = versionToWrite t name payload slot := by
  cases slot with
  | none => rfl
  | some v =>
    cases htomb : v.isTombstone with
    | false => rw [withoutTombstone_some htomb]
    | true =>
      obtain rfl := hplain v rfl htomb
      rfl

end

namespace Engine.Alike

variable {e e' : Engine}

theorem trans {e₁ e₂ e₃ : Engine} (h : e₁.Alike e₂) (h' : e₂.Alike e₃) : e₁.Alike e₃ :=
  ⟨h.shown.trans h'.shown, fun t => (h.live t).trans (h'.live t)⟩

/-- Work on the maps and on all else may go on as long as the transactions are left alone. -/
theorem of_shown (h : e.Alike e') {d d' : Engine} (hshown : SameShown d d')
    (hlive : d.live = e.live) (hlive' : d'.live = e'.live) : d.Alike d' :=
  ⟨hshown, fun t => by rw [hlive, hlive']; exact h.live t⟩

theorem setLog (h : e.Alike e') (t : TxnId) (log : UndoLog) :
    (e.setLog t log).Alike (e'.setLog t log) where
  shown := (SameShown.setLive e _).symm.trans (h.shown.trans (SameShown.setLive e' _))
  live u := by
    rw [get?_live_setLog, get?_live_setLog]
    split
    · rw [h.live]
    · exact h.live u

theorem count (h : e.Alike e') (f : Metrics → Metrics) : (e.count f).Alike (e'.count f) :=
  h.of_shown (h.shown.count f) rfl rfl

theorem finish (h : e.Alike e') (t : TxnId) : (e.finish t).Alike (e'.finish t) := by
  have hlive := h.live t
  have herased : ∀ u, (e.finish t).live.get? u = (e'.finish t).live.get? u := by
    intro u
    -- The transaction goes from both tables.
    rw [live_finish, live_finish, Table.get?_erase, Table.get?_erase, h.live u]
  refine ⟨?_, herased⟩
  unfold Engine.finish
  rw [← hlive]
  cases e.live.get? t with
  | none => exact h.shown
  | some txn =>
    -- The count of readers changes by the isolation of the transaction, which is the same.
    let readers (d : Engine) : Engine := { d with
      repeatableReaders :=
        if txn.isolation.needsRepeatableRead then d.repeatableReaders - 1
        else d.repeatableReaders }
    have hreaders : SameShown (readers e) (readers e') := h.shown.map fun _ _ _ => rfl
    exact (SameShown.setLive _ _).symm.trans (hreaders.trans (SameShown.setLive _ _))

theorem beginWith (h : e.Alike e') (isolation : Isolation) :
    (((Engine.beginWith isolation).runOn e).2).Alike ((Engine.beginWith isolation).runOn e').2 := by
  have hnext : e.nextTxn = e'.nextTxn := h.shown.eq_of fun _ _ _ => rfl
  rw [runOn_beginWith, runOn_beginWith, ← hnext]
  -- Apart from the transactions, a start changes the count of readers and the next number.
  let started (d : Engine) : Engine := { d with
    repeatableReaders :=
      if isolation.needsRepeatableRead then d.repeatableReaders + 1 else d.repeatableReaders
    nextTxn := ⟨e.nextTxn.val + 1⟩ }
  have hstarted : SameShown (started e) (started e') := h.shown.map fun _ _ _ => rfl
  refine ⟨(SameShown.setLive _ _).symm.trans (hstarted.trans (SameShown.setLive _ _)), fun t => ?_⟩
  show (e.live.insert e.nextTxn _).get? t = (e'.live.insert e.nextTxn _).get? t
  rw [Table.get?_insert, Table.get?_insert, h.live t]

/-- A write over slots that show the same. -/
theorem afterWrite (h : e.Alike e') (t : TxnId) (log : UndoLog) {m m' : VersionMap}
    (hview : m.view = m'.view) (name : String) (key : Value) (v : Version) :
    (e.afterWrite t log m name key v).Alike (e'.afterWrite t log m' name key v) := by
  have hset := h.of_shown (h.shown.setMap name (VersionMap.view_put hview key v)) rfl rfl
  have hslot := VersionMap.slot_eq_of_view hview key
  unfold withoutTombstone at hslot
  unfold Engine.afterWrite
  rw [hslot]
  exact hset.setLog t _

theorem afterRollbackTo (h : e.Alike e') (t : TxnId) (log : UndoLog) (n : Nat) :
    (e.afterRollbackTo t log n).Alike (e'.afterRollbackTo t log n) := by
  obtain ⟨-, hshown⟩ := UndoLog.revertAll_shown (log.drop n).reverse h.shown
  have hlive := congrArg Engine.live (UndoLog.revertAll_eq (log.drop n).reverse e)
  have hlive' := congrArg Engine.live (UndoLog.revertAll_eq (log.drop n).reverse e')
  exact (h.of_shown hshown hlive hlive').setLog t (log.take n)

theorem aborted (h : e.Alike e') (t : TxnId) (log : UndoLog) :
    (e.aborted t log).Alike (e'.aborted t log) := by
  obtain ⟨hcount, hshown⟩ := UndoLog.revertAll_shown (log.drop 0).reverse h.shown
  have hlive := congrArg Engine.live (UndoLog.revertAll_eq (log.drop 0).reverse e)
  have hlive' := congrArg Engine.live (UndoLog.revertAll_eq (log.drop 0).reverse e')
  unfold Engine.aborted UndoLog.rollbackTo
  simp only [hcount]
  exact ((h.of_shown hshown hlive hlive').finish t).count _

theorem committed (h : e.Alike e') (t : TxnId) (log : UndoLog) :
    (e.committed t log).Alike (e'.committed t log) := by
  obtain ⟨hlog, hshown⟩ := UndoLog.commit_shown log h.shown
  have hlive := congrArg Engine.live (UndoLog.commit_eq log e)
  have hlive' := congrArg Engine.live (UndoLog.commit_eq log e')
  unfold Engine.committed
  simp only [hlog]
  exact ((h.of_shown hshown hlive hlive').finish t).count _

/-! ### One call -/

/-- The same answer, and engines that are alike. -/
def Outcome {α : Type} (a b : Except StoreError α × Engine) : Prop := a.1 = b.1 ∧ a.2.Alike b.2

theorem Outcome.map {α β : Type} {a b : Except StoreError α × Engine} (h : Outcome a b)
    (f : α → β) : Outcome (a.1.map f, a.2) (b.1.map f, b.2) :=
  ⟨congrArg (Except.map f) h.1, h.2⟩

theorem read (h : e.Alike e') (t : TxnId) (name : String) (key : Value) :
    Outcome ((Engine.read t name key).runOn e) ((Engine.read t name key).runOn e') := by
  rw [runOn_read, runOn_read, ← h.live t]
  cases e.live.get? t with
  | none => exact ⟨rfl, h⟩
  | some txn =>
    rcases h.shown.get?_cases name with ⟨hm, hm'⟩ | ⟨m, m', hm, hm', hview⟩
    · simp only [hm, hm']
      exact ⟨rfl, h⟩
    · simp only [hm, hm']
      refine ⟨congrArg Except.ok ?_, h⟩
      -- Nobody sees a tombstone, and without tombstones the slots are the same.
      rw [← bind_visibleTo_withoutTombstone, VersionMap.slot_eq_of_view hview,
        bind_visibleTo_withoutTombstone]

theorem write (h : e.Alike e') (hplain : e.IsPlain) (hplain' : e'.IsPlain) (t : TxnId)
    (name : String) (key : Value) (payload : Option Value) :
    Outcome ((Engine.write t name key payload).runOn e)
      ((Engine.write t name key payload).runOn e') := by
  rw [runOn_write, runOn_write, ← h.live t]
  cases e.live.get? t with
  | none => exact ⟨rfl, h⟩
  | some txn =>
    -- A map is open on both sides or on neither.
    rcases h.shown.get?_cases name with ⟨hm, hm'⟩ | ⟨m, m', hm, hm', hview⟩
    · simp only [hm, hm']
      exact ⟨rfl, h⟩
    · -- Only a plain tombstone is passed over here: one that is owned would be a conflict.
      have hdecided : versionToWrite t name payload (m.get? key) =
          versionToWrite t name payload (m'.get? key) := by
        rw [← versionToWrite_withoutTombstone fun v hv => hplain.maps hm hv,
          VersionMap.slot_eq_of_view hview,
          versionToWrite_withoutTombstone fun v hv => hplain'.maps hm' hv]
      simp only [hm, hm', hdecided]
      rcases versionToWrite t name payload (m'.get? key) with err | _ | v
      · exact ⟨rfl, h⟩
      · exact ⟨rfl, h⟩
      · exact ⟨rfl, h.afterWrite t txn.log hview name key v⟩

theorem rollback (h : e.Alike e') (t : TxnId) :
    Outcome ((Engine.rollback t).runOn e) ((Engine.rollback t).runOn e') := by
  rw [runOn_rollback, runOn_rollback, ← h.live t]
  cases e.live.get? t with
  | none => exact ⟨rfl, h⟩
  | some txn => exact ⟨rfl, h.aborted t txn.log⟩

theorem commit (h : e.Alike e') (t : TxnId) :
    Outcome ((Engine.commit t).runOn e) ((Engine.commit t).runOn e') := by
  rw [runOn_commit, runOn_commit, ← h.live t]
  cases e.live.get? t with
  | none => exact ⟨rfl, h⟩
  | some txn =>
    obtain ⟨hanswer, hshown⟩ := logWrites_shown h.shown t txn.log
    -- What is refused and what is logged is the same, as the view of the maps decides it.
    simp only
    rcases ha : (logWrites t txn.log).runOn e with ⟨answer, e₁⟩
    rcases hb : (logWrites t txn.log).runOn e' with ⟨answer', e₁'⟩
    rw [ha, hb] at hanswer hshown
    obtain rfl : answer = answer' := hanswer
    have hlogged := h.of_shown hshown (live_of_logWrites ha) (live_of_logWrites hb)
    cases answer with
    | ok u => exact ⟨rfl, hlogged.committed t txn.log⟩
    -- The transaction is settled, or it is undone, on both sides.
    | error err => exact ⟨rfl, hlogged.aborted t txn.log⟩

/-- A call is answered alike by engines that are alike, and they stay so. -/
theorem call (h : e.Alike e') (hplain : e.IsPlain) (hplain' : e'.IsPlain) (c : TxnCall) :
    Outcome (c.action.runOn e) (c.action.runOn e') := by
  cases c with
  | begin isolation =>
    -- The isolation is asked for or comes from the settings, which are the same.
    have hnext : e.nextTxn = e'.nextTxn := h.shown.eq_of fun _ _ _ => rfl
    have hsettings : e.settings = e'.settings := h.shown.eq_of fun _ _ _ => rfl
    have hbegun := h.beginWith (isolation.getD e.settings.defaultIsolation)
    rw [TxnCall.action, runOn_bind, runOn_bind, runOn_get, runOn_get]
    simp only [runOn_map, ← hsettings]
    refine ⟨?_, hbegun⟩
    rw [runOn_beginWith, runOn_beginWith, hnext]
  | read t p =>
    rw [TxnCall.action, runOn_map, runOn_map]
    exact (h.read t p.map p.key).map _
  | put t p value =>
    -- A put is a write whose answer is dropped.
    have hwrite := h.write hplain hplain' t p.map p.key (some value)
    rw [TxnCall.action, runOn_map, runOn_map, Engine.put, runOn_bind, runOn_bind]
    rcases ha : (Engine.write t p.map p.key (some value)).runOn e with ⟨a, e₁⟩
    rcases hb : (Engine.write t p.map p.key (some value)).runOn e' with ⟨b, e₁'⟩
    rw [ha, hb] at hwrite
    obtain rfl : a = b := hwrite.1
    cases a <;> exact ⟨rfl, hwrite.2⟩
  | delete t p =>
    rw [TxnCall.action, runOn_map, runOn_map]
    exact (h.write hplain hplain' t p.map p.key none).map _
  | savepoint t =>
    rw [TxnCall.action, runOn_map, runOn_map, runOn_savepoint, runOn_savepoint, ← h.live t]
    cases e.live.get? t <;> exact ⟨rfl, h⟩
  | rollbackTo t n =>
    rw [TxnCall.action, runOn_map, runOn_map, runOn_rollbackTo, runOn_rollbackTo, ← h.live t]
    cases e.live.get? t with
    | none => exact ⟨rfl, h⟩
    | some txn =>
      simp only
      split
      · exact ⟨rfl, h⟩
      · exact ⟨rfl, h.afterRollbackTo t txn.log n⟩
  -- The logs are the same, and so is what is undone.
  | commit t =>
    rw [TxnCall.action, runOn_map, runOn_map]
    exact (h.commit t).map _
  | rollback t =>
    rw [TxnCall.action, runOn_map, runOn_map]
    exact (h.rollback t).map _
  | drop t =>
    rw [TxnCall.action, runOn_map, runOn_map, runOn_attempt, runOn_attempt]
    exact ⟨rfl, (h.rollback t).2⟩

/-- Calls one after the other are answered alike by engines that are alike. -/
theorem serve (calls : List TxnCall) (h : e.Alike e') (hplain : e.IsPlain) (hplain' : e'.IsPlain) :
    (e.serve calls).1 = (e'.serve calls).1 ∧ (e.serve calls).2.Alike (e'.serve calls).2 := by
  induction calls generalizing e e' with
  | nil => exact ⟨rfl, h⟩
  | cons c rest ih =>
    obtain ⟨hanswer, hnext⟩ := h.call hplain hplain' c
    obtain ⟨hanswers, hlast⟩ := ih hnext (hplain.effect (c.effect e)) (hplain'.effect (c.effect e'))
    exact ⟨List.cons_eq_cons.mpr ⟨hanswer, hanswers⟩, hlast⟩

/-- Every map is of the same size. -/
theorem size_eq (h : e.Alike e') (name : String) :
    (e.maps.get? name).map VersionMap.size = (e'.maps.get? name).map VersionMap.size := by
  rcases h.shown.get?_cases name with ⟨hm, hm'⟩ | ⟨m, m', hm, hm', hview⟩
  · rw [hm, hm']
  · rw [hm, hm', Option.map_some, Option.map_some, VersionMap.size_eq_of_view hview]

end Engine.Alike

end TxnStore
