import Mathlib.Algebra.Ring.Nat
import TxnStore.Proofs.Recovery.CommitFrames
import TxnStore.Proofs.Values.Spelling

/-!
# What estimates count

The estimate of a map is raised record by record while a commit writes its redo records, before the
log has the frame, and nothing but a reset lowers it. So it counts the bytes of the records in the
frames of the log, and beside them what was written for commits that then failed: the records before
the one that has no encoding, or all of them if the log refused the frame.
-/

namespace TxnStore

open TxnStore.Action

/-! ## Bytes of records -/

/-- The bytes of the records of a map in a frame. -/
def Frame.bytesFor (f : Frame) (map : String) : Nat :=
  match f.records with
  | .ok parts => ((parts.filter fun part => part.map = map).map fun part => part.bytes.length).sum
  | .error _ => 0

namespace RedoRecord

variable {codecs : CodecBook} {map : String}

/-- The bytes of the records of a map where records are written one after the other, up to the first
one that cannot be encoded. -/
def bytesWritten (codecs : CodecBook) (map : String) : List RedoRecord → Nat
  | [] => 0
  | r :: rest =>
    match r.encode (codecs r.map).1 (codecs r.map).2 with
    | .error _ => 0
    | .ok bs => (if r.map = map then bs.length else 0) + bytesWritten codecs map rest

theorem bytesWritten_of_forall_ne {records : List RedoRecord} (h : ∀ r ∈ records, r.map ≠ map) :
    bytesWritten codecs map records = 0 := by
  induction records with
  | nil => rfl
  | cons r rest ih =>
    obtain ⟨hfirst, hrest⟩ := List.forall_mem_cons.mp h
    rw [bytesWritten]
    split
    · rfl
    · rw [if_neg hfirst, ih hrest]

end RedoRecord

/-- A frame with given records has the bytes that are written for them. -/
theorem Frame.HasRecords.bytesFor {f : Frame} {maps : Table String VersionMap}
    {records : List RedoRecord} (h : f.HasRecords maps records) (map : String) :
    f.bytesFor map = RedoRecord.bytesWritten (codecBook maps) map records := by
  obtain ⟨parts, hparts, hmatch⟩ := h
  obtain ⟨-, hfits⟩ := RawRecord.eq_of_split hparts
  rw [Frame.bytesFor, hparts]
  clear hparts
  -- The records of the payload and those of the history are matched one by one.
  induction hmatch with
  | nil => rfl
  | @cons part r parts records hfirst _ ih =>
    obtain ⟨hmap, m, hm, hdecode⟩ := hfirst
    obtain ⟨hfit, hfits⟩ := List.forall_mem_cons.mp hfits
    have hcodecs : codecBook maps r.map = (m.keyCodec, m.valueCodec) :=
      codecBook_of_codecsOf (by rw [codecsOf, hm]; rfl)
    have hencode : r.encode (codecBook maps r.map).1 (codecBook maps r.map).2 = .ok part.bytes := by
      have hspelled := RawRecord.encode_of_decode hfit hdecode
      rw [hmap] at hspelled
      rw [hcodecs]
      exact hspelled
    have hothers := ih hfits
    simp only at hothers ⊢
    rw [RedoRecord.bytesWritten, hencode]
    -- A record is counted on both sides, or for another map on both.
    by_cases hr : r.map = map
    · rw [List.filter_cons_of_pos (by simp [hmap, hr]), List.map_cons, List.sum_cons, hothers]
      simp only [if_pos hr]
    · rw [List.filter_cons_of_neg (by simp [hmap, hr]), hothers]
      simp only [if_neg hr, Nat.zero_add]

theorem IsFrameFor.bytesFor {t : TxnId} {maps : Table String VersionMap}
    {records : List RedoRecord} {f : Option Frame} (h : IsFrameFor t maps records f)
    (map : String) :
    (f.toList.map fun g => g.bytesFor map).sum =
      RedoRecord.bytesWritten (codecBook maps) map records := by
  cases h with
  | empty => rfl
  | frame _ _ hrecords => simp [hrecords.bytesFor map]

/-! ## Raising estimates -/

namespace Engine

variable {e e' : Engine} {t : TxnId}

theorem estimate_addEstimate (e : Engine) (name : String) (bytes : UInt64) (map : String) :
    (e.addEstimate name bytes).estimate map =
      e.estimate map + if name = map then bytes else 0 := by
  unfold addEstimate
  split
  · -- An estimate without a name is none.
    next hnone =>
    subst hnone
    split <;> exact (UInt64.add_zero _).symm
  · unfold estimate
    rw [Table.get?_insert]
    by_cases hname : name = map
    · rw [if_pos hname.symm, if_pos hname, hname]
      rfl
    · rw [if_neg (Ne.symm hname), if_neg hname, UInt64.add_zero]

theorem estimate_of_dirty (h : e'.dirty = e.dirty) (map : String) :
    e'.estimate map = e.estimate map := by
  rw [estimate, estimate, h]

end Engine

namespace UndoLog

/-- Each record that is written raises the estimate of its map, also if a later one cannot be
encoded. -/
theorem estimate_writeRedo (log : UndoLog) (bs : List UInt8) (e : Engine) (map : String) :
    ((writeRedo log).runOn (bs, e)).2.2.estimate map =
      e.estimate map +
        UInt64.ofNat (RedoRecord.bytesWritten (codecBook e.maps) map
          (log.toRedo e.maps.contains)) := by
  -- The estimate varies with the engine, and the rest of the log counts from there.
  induction log generalizing bs e with
  | nil => exact (UInt64.add_zero _).symm
  | cons r rest ih =>
    have hrun := r.runOn_writeRedo bs e
    -- A write that is over, or to a map that is gone, is passed over.
    have hskipped : (!r.isFinished && e.maps.contains r.map) = false →
        r.writeRedo.runOn (bs, e) = (.ok 0, bs, e) →
          ((writeRedo (r :: rest)).runOn (bs, e)).2.2.estimate map =
            e.estimate map + UInt64.ofNat (RedoRecord.bytesWritten (codecBook e.maps) map
              (toRedo e.maps.contains (r :: rest))) := by
      intro hr hsame
      have hredo : toRedo e.maps.contains (r :: rest) = toRedo e.maps.contains rest := by
        rw [toRedo, List.filter_cons_of_neg (by simp [hr])]
        rfl
      rw [hredo, ← ih bs e, writeRedo, runOn_bind, hsame]
      simp only [runOn_bind]
      rcases (writeRedo rest).runOn (bs, e) with ⟨err | n, x⟩ <;> rfl
    by_cases hdone : r.isFinished = true
    · rw [if_pos hdone] at hrun
      exact hskipped (by simp [hdone]) hrun
    rw [if_neg hdone] at hrun
    cases hm : e.maps.get? r.map with
    | none =>
      simp only [hm] at hrun
      exact hskipped (by simp [Table.contains, hm]) hrun
    | some m =>
      simp only [hm] at hrun
      have hcodecs : codecBook e.maps r.map = (m.keyCodec, m.valueCodec) :=
        codecBook_of_codecsOf (by rw [codecsOf, hm]; rfl)
      have hredo : toRedo e.maps.contains (r :: rest) =
          r.toRedo :: toRedo e.maps.contains rest := by
        rw [toRedo, List.filter_cons_of_pos (by simp [hdone, Table.contains, hm])]
        rfl
      have hmap : r.toRedo.map = r.map := rfl
      rw [hredo, RedoRecord.bytesWritten, hmap, hcodecs, writeRedo, runOn_bind, hrun]
      cases hencode : r.toRedo.encode m.keyCodec m.valueCodec with
      -- Where a record cannot be encoded the writing stops, and the rest is not counted.
      | error err => exact (UInt64.add_zero _).symm
      | ok record =>
        let e₁ := e.addEstimate r.map (UInt64.ofNat record.length)
        have hmaps : e₁.maps = e.maps := by
          obtain ⟨dirty, hdirty⟩ := e.addEstimate_eq r.map (UInt64.ofNat record.length)
          rw [show e₁ = { e with dirty } from hdirty]
        have hrest := ih (bs ++ record) e₁
        rw [hmaps, Engine.estimate_addEstimate] at hrest
        simp only [runOn_bind]
        rw [UInt64.ofNat_add, ← UInt64.add_assoc]
        have hsame : (if r.map = map then UInt64.ofNat record.length else 0) =
            UInt64.ofNat (if r.map = map then record.length else 0) := by
          split <;> rfl
        -- Sums of words may be put together in any order.
        rw [hsame] at hrest
        rw [← hrest]
        rcases (writeRedo rest).runOn (bs ++ record, e₁) with ⟨err | n, x⟩ <;> rfl

end UndoLog

namespace Engine

variable {e e' : Engine} {t : TxnId} {map : String}

/-- Logging writes raises the estimates, whether or not the log takes the frame. -/
theorem estimate_logWrites (t : TxnId) (writes : UndoLog) (e : Engine) (map : String) :
    ((logWrites t writes).runOn e).2.estimate map =
      e.estimate map +
        UInt64.ofNat (RedoRecord.bytesWritten (codecBook e.maps) map
          (writes.toRedo e.maps.contains)) := by
  rw [← UndoLog.estimate_writeRedo writes [] e map]
  unfold logWrites
  rw [runOn_bind, runOn_get]
  -- Whatever happens to the bytes, the estimates stay as they are after the writing.
  rcases hr : (UndoLog.writeRedo writes).runOn ([], e) with ⟨err | n, bs, e₁⟩
  · simp only [hr, runOn_bind, runOn_set, runOn_ofExcept]
  · simp only [hr, runOn_bind, runOn_set, runOn_ofExcept]
    split
    · obtain ⟨log, metrics, hcommit⟩ := logCommit_eq t bs e₁
      rw [hcommit]
      rfl
    · rfl

theorem dirty_finish (e : Engine) (t : TxnId) : (e.finish t).dirty = e.dirty := by
  unfold finish
  split <;> rfl

theorem dirty_aborted (e : Engine) (t : TxnId) (log : UndoLog) :
    (e.aborted t log).dirty = e.dirty := by
  obtain ⟨maps, metrics, hsame⟩ := e.aborted_eq t log
  rw [hsame]
  exact dirty_finish e t

theorem dirty_committed (e : Engine) (t : TxnId) (log : UndoLog) :
    (e.committed t log).dirty = e.dirty := by
  obtain ⟨maps, metrics, hsame⟩ := e.committed_eq t log
  rw [hsame]
  exact dirty_finish e t

/-- The bytes for a map that a call writes before they go to the log. Only a commit writes any. -/
def bytesWritten (e : Engine) (h : RecordHistory) (map : String) : TxnCall → Nat
  | .commit t =>
    if (e.live.get? t).isSome then
      RedoRecord.bytesWritten (codecBook e.maps) map ((h t).filter fun r => e.maps.contains r.map)
    else 0
  | _ => 0

theorem bytesWritten_of_not_commit {c : TxnCall} (h : c.isCommit = false)
    (history : RecordHistory) : e.bytesWritten history map c = 0 := by
  cases c <;> first | rfl | cases h

/-- Nothing is written for a map that is gone. -/
theorem bytesWritten_of_closed {history : RecordHistory} (hclosed : e.maps.contains map = false)
    (c : TxnCall) : e.bytesWritten history map c = 0 := by
  cases c with
  | commit t =>
    rw [bytesWritten]
    split
    · -- No record of a commit is counted for a map that is not open.
      refine RedoRecord.bytesWritten_of_forall_ne fun r hr hmap => ?_
      have hopen := (List.mem_filter.mp hr).2
      rw [hmap, hclosed] at hopen
      cases hopen
    · rfl
  | _ => rfl

theorem dirty_of_effect {c : TxnCall} {a : Except StoreError TxnAnswer} (hx : Effect e c a e')
    (hc : c.isCommit = false) : e'.dirty = e.dirty := by
  cases hx with
  | refused | found | saved | unseen | closed | begun | written => rfl
  | @wentBack t txn n _ _ =>
    have hframe := UndoLog.revertAll_eq (txn.log.drop n).reverse e
    show (UndoLog.revertAll (txn.log.drop n).reverse e).2.dirty = _
    rw [hframe]
  | @ended t txn _ _ _ => exact dirty_aborted e t txn.log
  | undone | committed => cases hc

/-- A call raises the estimates by what it writes, whatever it answers. -/
theorem estimate_call {h : RecordHistory} (hh : h.Remembers e) (c : TxnCall) (map : String) :
    (e.after (.call c)).estimate map =
      e.estimate map + UInt64.ofNat (e.bytesWritten h map c) := by
  cases hc : c.isCommit with
  | false =>
    -- Only commits write records.
    rw [bytesWritten_of_not_commit hc, after, estimate_of_dirty (dirty_of_effect (c.effect e) hc)]
    exact (UInt64.add_zero _).symm
  | true =>
    cases c with
    | commit t =>
      rw [after, TxnCall.action, runOn_map, runOn_commit, bytesWritten]
      cases hl : e.live.get? t with
      | none => exact (UInt64.add_zero _).symm
      | some txn =>
        have hlogged := estimate_logWrites t txn.log e map
        rw [(hh hl).toRedo_eq] at hlogged
        simp only [Option.isSome_some, if_true, ← hlogged]
        -- The outcome decides whether the writes are kept, but both ways leave the estimates.
        rcases (logWrites t txn.log).runOn e with ⟨err | u, e₁⟩
        · exact estimate_of_dirty (dirty_aborted e₁ t txn.log) map
        · exact estimate_of_dirty (dirty_committed e₁ t txn.log) map
    | _ => cases hc

/-- A call that succeeds adds what it writes to the log in a frame, and one that fails adds no
frame. -/
theorem gains_call {h : RecordHistory} (hh : h.Remembers e) {log : RedoLog}
    (hlog : e.log = some log) (htrimmed : log.IsTrimmed) (c : TxnCall) :
    ∃ log' f, (e.after (.call c)).log = some log' ∧ log.Gains log' f ∧
      ((∃ err, (c.action.runOn e).1 = .error err) → f = none) ∧
      (f.isSome = true → c.isCommit = true) ∧
      ((∃ x, (c.action.runOn e).1 = .ok x) → ∀ map,
        (f.toList.map fun g => g.bytesFor map).sum = e.bytesWritten h map c) := by
  obtain ⟨log', f, hlog', hgains, hcommit, hframe⟩ := gains_of_effect (c.effect e) hlog htrimmed
  refine ⟨log', f, hlog', hgains, ?_, ?_, ?_⟩
  · rintro ⟨err, herr⟩
    cases f with
    | none => rfl
    -- A frame was added, so that the commit has succeeded.
    | some g =>
      obtain ⟨t, -, hdone⟩ := hcommit rfl
      rw [hdone] at herr
      cases herr
  · intro hsome
    obtain ⟨t, rfl, -⟩ := hcommit hsome
    rfl
  · rintro ⟨x, hx⟩ map
    cases hc : c.isCommit with
    | false =>
      -- What is not a commit adds no frame.
      have hnone : f = none := by
        cases f with
        | none => rfl
        | some g =>
          obtain ⟨t, rfl, -⟩ := hcommit rfl
          cases hc
      rw [bytesWritten_of_not_commit hc, hnone]
      rfl
    | true =>
      cases c with
      | commit t =>
        cases hl : e.live.get? t with
        -- The transaction is not under way, and the commit was refused.
        | none =>
          rw [TxnCall.action, runOn_map, runOn_commit, hl] at hx
          cases hx
        | some txn =>
          -- A commit answers either with an error or with this.
          have hdone : ((TxnCall.commit t).action.runOn e).1 = .ok .done := by
            rw [TxnCall.action, runOn_map, runOn_commit, hl] at hx ⊢
            simp only at hx ⊢
            rcases hrun : (logWrites t txn.log).runOn e with ⟨err | u, e₁⟩
            · rw [hrun] at hx
              cases hx
            · rfl
          rw [(hframe t txn rfl hdone hl).bytesFor map, (hh hl).toRedo_eq, bytesWritten, hl]
          rfl
      | _ => cases hc

/-! ## Maps and resets -/

theorem dirty_createMap (e : Engine) (name : String) (keyCodec valueCodec : Codec) :
    ((createMap name keyCodec valueCodec).runOn e).2.dirty = e.dirty := by
  obtain ⟨catalog, maps, nextMapId, hsame⟩ := e.createMap_eq name keyCodec valueCodec
  rw [hsame]

/-- A map that is dropped takes its estimate along. -/
theorem estimate_dropMap {name : String} {b : Bool}
    (h : ((dropMap name).runOn e).1 = .ok b) (map : String) :
    (e.after (.dropMap name)).estimate map =
      if map = name ∧ e.maps.contains name = true then 0 else e.estimate map := by
  rw [after]
  rw [dropMap, runOn_bind, runOn_get] at h ⊢
  cases hopen : e.maps.contains name with
  -- There is no such map, and nothing changes.
  | false => simp [hopen]
  | true =>
    -- The estimate of the map goes, the others stay.
    have herase : ∀ e₁ : Engine, e₁.dirty = e.dirty.erase name →
        e₁.estimate map = if map = name ∧ True then 0 else e.estimate map := by
      intro e₁ hdirty
      rw [estimate, hdirty, Table.get?_erase, estimate]
      by_cases hname : map = name <;> simp [hname]
    simp only [hopen, Bool.not_true, Bool.false_eq_true, if_false, runOn_bind, runOn_set] at h ⊢
    split
    · next hstored =>
      rw [if_pos hstored] at h
      simp only [onCatalog, runOn_bind, runOn_onPart] at h ⊢
      -- A drop that fails is excluded, so that the catalog has forgotten the map.
      rcases hforget : (Catalog.forget ⟨.map, name⟩).runOn e.catalog with ⟨err | u, catalog⟩
      · rw [hforget] at h
        cases h
      · exact herase _ rfl
    · exact herase _ rfl

theorem estimate_resetEstimate (e : Engine) (name map : String) :
    (((resetEstimate name).runOn e).2).estimate map = if map = name then 0 else e.estimate map := by
  rw [resetEstimate, runOn_bind, runOn_get]
  -- There is no estimate to be set to zero.
  cases hdirty : e.dirty.get? name with
  | none =>
    simp only [hdirty, runOn_pure]
    split
    · next hname => rw [estimate, hname, hdirty, Option.getD_none]
    · rfl
  | some bytes =>
    simp only [hdirty, runOn_bind, runOn_set, runOn_pure]
    rw [estimate, Table.get?_insert]
    split <;> rfl

/-- A reset changes estimates only. -/
theorem resetEstimate_eq (e : Engine) (name : String) :
    ∃ dirty, ((resetEstimate name).runOn e).2 = { e with dirty } := by
  rw [resetEstimate, runOn_bind, runOn_get]
  cases hdirty : e.dirty.get? name with
  | none => exact ⟨e.dirty, by simp only [hdirty, runOn_pure]⟩
  | some bytes => exact ⟨_, by simp only [hdirty, runOn_bind, runOn_set, runOn_pure]; rfl⟩

/-! ## Accounts -/

/-- The frames in the log of an engine, as a reader finds them. -/
def frames (e : Engine) : List Frame :=
  match e.framesUnder .none with
  | some (.ok (frames, _)) => frames
  | _ => []

theorem frames_of_lists {log : RedoLog} {frames : List Frame} (hlog : e.log = some log)
    (htrimmed : log.IsTrimmed) (hlists : log.Lists frames) : e.frames = frames := by
  rw [Engine.frames, framesUnder, hlog, Option.map_some,
    (hlists.withFaults .none).frames_eq (htrimmed.withFaults .none) rfl]

/-- Whether a request creates a map of the name. -/
def creates (e : Engine) (q : EngineRequest) (map : String) : Bool :=
  !e.maps.contains map && (e.after q).maps.contains map

/-- The bytes that a request has written for a map although it fails. -/
def bytesWasted (e : Engine) (h : RecordHistory) (map : String) : EngineRequest → Nat
  | .call c =>
    match (c.action.runOn e).1 with
    | .ok _ => 0
    | .error _ => e.bytesWritten h map c
  | _ => 0

end Engine

/-- A request while certain calls of the device of the log fail, or a reset of an estimate. -/
inductive RedoStep where
  | request (faults : DeviceFaults) (q : EngineRequest)
  | reset (map : String)
deriving DecidableEq, Repr

def RedoStep.isCommit : RedoStep → Bool
  | request _ q => q.isCommit
  | reset _ => false

/-- An engine, the records of its transactions, and an account of the redo written for each map. -/
structure RedoAccount where
  engine : Engine
  history : RecordHistory
  /-- The bytes of the records of a map in the frames that the log gained since the map was created
  or its estimate was reset. -/
  logged : String → Nat
  /-- The bytes that were written for the map since then by commits that failed. -/
  wasted : String → Nat

namespace RedoAccount

def start (e : Engine) : RedoAccount := ⟨e, .blank, fun _ => 0, fun _ => 0⟩

def serve (x : RedoAccount) (q : EngineRequest) : RedoAccount :=
  let gained := (x.engine.after q).frames.drop x.engine.frames.length
  { engine := x.engine.after q
    history := x.history.step x.engine q
    logged := fun map =>
      if x.engine.creates q map then 0
      else x.logged map + (gained.map fun f => f.bytesFor map).sum
    wasted := fun map =>
      if x.engine.creates q map then 0 else x.wasted map + x.engine.bytesWasted x.history map q }

def withFaults (x : RedoAccount) (faults : DeviceFaults) : RedoAccount :=
  { x with engine := x.engine.withFaults faults }

def step (x : RedoAccount) : RedoStep → RedoAccount
  | .request faults q => (x.withFaults faults).serve q
  | .reset name =>
    { x with
      engine := ((Engine.resetEstimate name).runOn x.engine).2
      logged := fun map => if map = name then 0 else x.logged map
      wasted := fun map => if map = name then 0 else x.wasted map }

def run (x : RedoAccount) (steps : List RedoStep) : RedoAccount := steps.foldl step x

/-- A map that is to be dropped is dropped, and its definition with it. -/
def Drops (x : RedoAccount) : RedoStep → Prop
  | .request faults (.dropMap name) =>
    ∃ b, ((Engine.dropMap name).runOn (x.engine.withFaults faults)).1 = .ok b
  | _ => True

/-- The same for each of a run of steps. -/
def DropsAll (x : RedoAccount) : List RedoStep → Prop
  | [] => True
  | s :: rest => x.Drops s ∧ (x.step s).DropsAll rest

/-- The estimates are those of the account, and the log has numbers for so many frames more. -/
structure Balances (x : RedoAccount) (n : Nat) : Prop where
  remembers : x.history.Remembers x.engine
  log : ∃ log frames, x.engine.log = some log ∧ log.IsTrimmed ∧ log.Lists frames ∧ log.HasNumbers n
  opened : ∀ map, x.engine.maps.contains map = true →
    x.engine.estimate map = UInt64.ofNat (x.logged map + x.wasted map)
  closed : ∀ map, x.engine.maps.contains map = false → x.engine.estimate map = 0

namespace Balances

variable {x : RedoAccount} {n : Nat}

theorem withFaults (h : x.Balances n) (faults : DeviceFaults) :
    (x.withFaults faults).Balances n := by
  obtain ⟨log, frames, hlog, htrimmed, hlists, hnumbers⟩ := h.log
  refine ⟨h.remembers, ⟨log.withFaults faults, frames, ?_, htrimmed.withFaults faults,
    hlists.withFaults faults, hnumbers.withFaults faults⟩, h.opened, h.closed⟩
  show (x.engine.withFaults faults).log = _
  rw [Engine.withFaults, hlog, Option.map_some]

theorem reset (h : x.Balances n) (name : String) : (x.step (.reset name)).Balances n := by
  obtain ⟨dirty, hdirty⟩ := x.engine.resetEstimate_eq name
  have hestimate := x.engine.estimate_resetEstimate name
  -- Neither the transactions nor the log have a part in it.
  refine ⟨?_, ?_, fun map hopen => ?_, fun map hclosed => ?_⟩
  · rw [step, hdirty]
    exact h.remembers
  · rw [step, hdirty]
    exact h.log
  · -- The books are set to zero for this map only.
    have hopen₀ : x.engine.maps.contains map = true := by
      rwa [step, hdirty] at hopen
    show (((Engine.resetEstimate name).runOn x.engine).2).estimate map = _
    rw [hestimate, step]
    by_cases hname : map = name
    · simp [hname]
    · simpa [hname] using h.opened map hopen₀
  · have hclosed₀ : x.engine.maps.contains map = false := by
      rwa [step, hdirty] at hclosed
    show (((Engine.resetEstimate name).runOn x.engine).2).estimate map = _
    rw [hestimate, h.closed map hclosed₀, ite_self]

/-- What a call writes is accounted for by the frame that the log gains, or as wasted. -/
theorem call {c : TxnCall} (h : x.Balances (n + if c.isCommit then 1 else 0)) :
    (x.serve (.call c)).Balances n := by
  obtain ⟨log, frames, hlog, htrimmed, hlists, hnumbers⟩ := h.log
  obtain ⟨log', f, hlog', hgains, hfailed, hcommit, hdone⟩ :=
    Engine.gains_call h.remembers hlog htrimmed c
  have htrimmed' : log'.IsTrimmed := (c.effect x.engine).logTrimmed
    (fun l hl => Option.some.inj (hlog.symm.trans hl) ▸ htrimmed) hlog'
  have hlists' := hlists.gains hgains fun _ => hnumbers.starts
  -- The frames that came with the call are the one that was added, if any.
  have hgained : (x.engine.after (.call c)).frames.drop x.engine.frames.length = f.toList := by
    rw [Engine.frames_of_lists hlog' htrimmed' hlists', Engine.frames_of_lists hlog htrimmed hlists,
      List.drop_left]
  -- A call creates no map.
  have hcreates : ∀ map, x.engine.creates (.call c) map = false := by
    intro map
    rw [Engine.creates, x.engine.contains_call c]
    cases x.engine.maps.contains map <;> rfl
  -- What is written for a map is logged, or it is wasted when the call fails.
  have hspent : ∀ map, (f.toList.map fun g => g.bytesFor map).sum +
      x.engine.bytesWasted x.history map (.call c) = x.engine.bytesWritten x.history map c := by
    intro map
    rw [Engine.bytesWasted]
    cases ha : (c.action.runOn x.engine).1 with
    | error err =>
      rw [hfailed ⟨err, ha⟩]
      exact Nat.zero_add _
    | ok a =>
      rw [hdone ⟨a, ha⟩ map]
      rfl
  refine ⟨h.remembers.after (.call c), ⟨log', _, hlog', htrimmed', hlists', ?_⟩,
    fun map hopen => ?_, fun map hclosed => ?_⟩
  · -- A number is used up by a commit only.
    have hleft : (if f.isSome then 1 else 0) ≤ if c.isCommit then 1 else 0 := by
      cases hf : f.isSome with
      | false => simp
      | true => simp [hcommit hf]
    exact (hnumbers.le (Nat.add_le_add_left hleft n)).gains hgains
  · -- The new total is the old one and what was written now.
    have hbefore := h.opened map (x.engine.contains_call c map ▸ hopen)
    have htotal : (x.serve (.call c)).logged map + (x.serve (.call c)).wasted map =
        x.logged map + x.wasted map + x.engine.bytesWritten x.history map c := by
      rw [← hspent map, serve]
      simp only [hcreates, hgained, Bool.false_eq_true, if_false]
      omega
    rw [htotal, UInt64.ofNat_add, ← hbefore]
    exact Engine.estimate_call h.remembers c map
  · have hclosed₀ : x.engine.maps.contains map = false := x.engine.contains_call c map ▸ hclosed
    show (x.engine.after (.call c)).estimate map = 0
    rw [Engine.estimate_call h.remembers c map, Engine.bytesWritten_of_closed hclosed₀,
      h.closed map hclosed₀]
    rfl

/-- A request that leaves the log alone gains no frame. -/
theorem of_log {q : EngineRequest} (h : x.Balances n)
    (hsame : (x.engine.after q).log = x.engine.log)
    (hopened : ∀ map, (x.engine.after q).maps.contains map = true →
      (x.engine.after q).estimate map =
        if x.engine.creates q map then 0 else UInt64.ofNat (x.logged map + x.wasted map))
    (hclosed : ∀ map, (x.engine.after q).maps.contains map = false →
      (x.engine.after q).estimate map = 0)
    (hwasted : ∀ map, x.engine.bytesWasted x.history map q = 0) :
    (x.serve q).Balances n := by
  obtain ⟨log, frames, hlog, htrimmed, hlists, hnumbers⟩ := h.log
  have hgained : (x.engine.after q).frames.drop x.engine.frames.length = [] := by
    rw [Engine.frames_of_lists (hsame.trans hlog) htrimmed hlists,
      Engine.frames_of_lists hlog htrimmed hlists, List.drop_length]
  refine ⟨h.remembers.after q, ⟨log, frames, hsame.trans hlog, htrimmed, hlists, hnumbers⟩,
    fun map hopen => ?_, hclosed⟩
  rw [show (x.serve q).engine = x.engine.after q from rfl, hopened map hopen, serve]
  simp only [hgained, hwasted]
  split <;> rfl

theorem createMap (h : x.Balances n) (name : String) (keyCodec valueCodec : Codec) :
    (x.serve (.createMap name keyCodec valueCodec)).Balances n := by
  obtain ⟨-, -, hlog, hmaps⟩ := x.engine.createMap_cases name keyCodec valueCodec
  have hsame : ∀ map, (x.engine.after (.createMap name keyCodec valueCodec)).estimate map =
      x.engine.estimate map :=
    Engine.estimate_of_dirty (x.engine.dirty_createMap name keyCodec valueCodec)
  refine h.of_log hlog (fun map hopen => ?_) (fun map hclosed => ?_) fun _ => rfl
  · -- A map that was just created starts from zero, as one that was closed did.
    rw [hsame, Engine.creates, hopen]
    cases hbefore : x.engine.maps.contains map with
    | true => exact h.opened map hbefore
    | false => exact h.closed map hbefore
  · rw [hsame]
    apply h.closed
    rw [Engine.after] at hclosed
    rcases hmaps with ⟨-, hmaps⟩ | ⟨-, -, hmaps⟩
    · rwa [hmaps] at hclosed
    · rw [hmaps, Table.contains_insert] at hclosed
      exact (Bool.or_eq_false_iff.mp hclosed).2

theorem dropMap (h : x.Balances n) {name : String} {b : Bool}
    (hdrop : ((Engine.dropMap name).runOn x.engine).1 = .ok b) :
    (x.serve (.dropMap name)).Balances n := by
  obtain ⟨-, -, hlog, hmaps⟩ := x.engine.dropMap_cases name
  have hcontains : ∀ map, (x.engine.after (.dropMap name)).maps.contains map =
      (!decide (map = name) && x.engine.maps.contains map) := by
    intro map
    rw [show (x.engine.after (.dropMap name)).maps = _ from hmaps, Table.contains,
      Table.get?_erase, Table.contains]
    by_cases hname : map = name <;> simp [hname]
  -- The name that is dropped is closed afterwards, and its books are closed too.
  refine h.of_log hlog (fun map hopen => ?_) (fun map hclosed => ?_) fun _ => rfl
  · rw [hcontains] at hopen
    obtain ⟨hname, hbefore⟩ := Bool.and_eq_true_iff.mp hopen
    have hother : ¬(map = name ∧ x.engine.maps.contains name = true) := fun hsame => by
      simp [hsame.1] at hname
    rw [Engine.estimate_dropMap hdrop, if_neg hother, Engine.creates, hbefore, h.opened map hbefore]
    rfl
  · rw [Engine.estimate_dropMap hdrop]
    split
    · rfl
    · next hother =>
      apply h.closed
      rw [hcontains] at hclosed
      by_cases hname : map = name
      · subst hname
        simpa using hother
      · simpa [hname] using hclosed

theorem step {s : RedoStep} (h : x.Balances (n + if s.isCommit then 1 else 0))
    (hdrops : x.Drops s) : (x.step s).Balances n := by
  cases s with
  -- A reset concerns the estimates, a request may touch everything.
  | reset name => exact h.reset name
  | request faults q =>
    have hfaulty := h.withFaults faults
    cases q with
    | call c => exact hfaulty.call
    | createMap name keyCodec valueCodec => exact hfaulty.createMap name keyCodec valueCodec
    | dropMap name =>
      obtain ⟨b, hdrop⟩ := hdrops
      exact hfaulty.dropMap hdrop

theorem run {steps : List RedoStep} (h : x.Balances (n + steps.countP (·.isCommit)))
    (hdrops : x.DropsAll steps) : (x.run steps).Balances n := by
  induction steps generalizing x with
  | nil => exact h
  | cons s rest ih =>
    rw [List.countP_cons, ← Nat.add_assoc] at h
    exact ih (h.step hdrops.1) hdrops.2

end Balances

/-! ## The main statement -/

/-- While no write was made and all estimates are zero, the account of an engine begins balanced. -/
theorem balances_start {e : Engine} {log : RedoLog} {frames : List Frame} {n : Nat}
    (hlog : e.log = some log) (htrimmed : log.IsTrimmed) (hlists : log.Lists frames)
    (hnumbers : log.HasNumbers n)
    (hunwritten : ∀ ⦃t txn⦄, e.live.get? t = some txn → txn.log = [])
    (hclean : ∀ map, e.estimate map = 0) : (start e).Balances n where
  remembers := fun t txn hl => by
    rw [hunwritten hl]
    exact .nil
  log := ⟨log, frames, hlog, htrimmed, hlists, hnumbers⟩
  opened := fun map _ => hclean map
  closed := fun map _ => hclean map

/-- After any run of requests, faults of the log and resets, in which maps that are to be dropped
are dropped, the estimate of a map counts the bytes of its records in the frames that the log
gained, and the bytes of its records that commits had written and then failed, since the map was
created or its estimate was reset. -/
theorem estimate_eq_logged_add_wasted {e : Engine} {log : RedoLog} {frames : List Frame}
    (hlog : e.log = some log) (htrimmed : log.IsTrimmed) (hlists : log.Lists frames)
    (hunwritten : ∀ ⦃t txn⦄, e.live.get? t = some txn → txn.log = [])
    (hclean : ∀ map, e.estimate map = 0) {steps : List RedoStep}
    (hnumbers : log.HasNumbers (steps.countP (·.isCommit))) (hdrops : (start e).DropsAll steps)
    (map : String) :
    let x := (start e).run steps
    x.engine.estimate map =
      if x.engine.maps.contains map then UInt64.ofNat (x.logged map + x.wasted map) else 0 := by
  intro x
  have hbalances : x.Balances 0 :=
    (balances_start hlog htrimmed hlists (by rwa [Nat.zero_add]) hunwritten hclean).run hdrops
  cases hopen : x.engine.maps.contains map with
  | true => exact hbalances.opened map hopen
  | false => exact hbalances.closed map hopen

/-- After a reset, a commit fails at a record that has no encoding, and another one succeeds. -/
theorem estimate_eq_logged_add_wasted_of_failed_commit :
    let options := LogOptions.basic 7 .never
    let quiet (c : TxnCall) : RedoStep := .request .none (.call c)
    let row (n : Int64) : Place := ⟨"m", .int n⟩
    let steps : List RedoStep :=
      [.request .none (.createMap "m" .int64 .text), quiet (.begin none),
        quiet (.put ⟨1⟩ (row 1) (.text "a")), quiet (.commit ⟨1⟩), .reset "m",
        quiet (.begin none), quiet (.put ⟨2⟩ (row 1) (.text "bc")),
        quiet (.put ⟨2⟩ (row 2) (.int 5)), quiet (.commit ⟨2⟩),
        quiet (.begin none), quiet (.put ⟨3⟩ (row 1) (.text "def")), quiet (.commit ⟨3⟩)]
    ∃ log device e, RedoLog.openOn options (Device.ofBytes []) = (.ok log, device) ∧
      Engine.openWith .basic .inMemory (some log) none = .ok e ∧ (start e).DropsAll steps ∧
      ((start e).run steps).engine.estimate "m" = 25 + 24 := by
  intro options quiet row steps
  let log := RedoLog.fresh options
  have hlog : RedoLog.openOn options (Device.ofBytes []) = (.ok log, log.device) :=
    RedoLog.openOn_fresh options
  have htrimmed : log.IsTrimmed := RedoLog.isTrimmed_of_openOn hlog
  obtain ⟨frames, hlists⟩ := RedoLog.Lists.exists_of_openOn hlog
  let e := Engine.bare .basic .inMemory (some log) none
  have hopen : Engine.openWith .basic .inMemory (some log) none = .ok e := rfl
  have hunwritten : ∀ ⦃t txn⦄, e.live.get? t = some txn → txn.log = [] := fun _ _ hl => by cases hl
  -- No map is dropped by the steps.
  have hdrops : (start e).DropsAll steps := by simp only [steps, quiet, DropsAll, Drops, and_self]
  have hnumbers : log.HasNumbers (steps.countP (·.isCommit)) := ⟨by decide, by decide⟩
  have hestimate := estimate_eq_logged_add_wasted rfl htrimmed hlists hunwritten (fun _ => rfl)
    hnumbers hdrops "m"
  let x := (start e).run steps
  have hx : x.engine.maps.contains "m" = true ∧ x.logged "m" = 25 ∧ x.wasted "m" = 24 := by
    decide +kernel
  obtain ⟨hm, hlogged, hwasted⟩ := hx
  refine ⟨log, _, e, hlog, hopen, hdrops, ?_⟩
  rw [hestimate, if_pos hm, hlogged, hwasted]
  rfl

/-- A commit fails at its second record. The log gains no frame, and the first record is in the
estimate all the same. -/
theorem estimate_grows_with_failed_commit :
    let log := RedoLog.reopened (.basic 7 .never) ⟨7, ⟨1⟩⟩ []
      (Device.ofBytes (LogHeader.encode ⟨7, ⟨1⟩⟩))
    let quiet (c : TxnCall) : RedoStep := .request .none (.call c)
    let x := (start (Engine.bare .basic .inMemory (some log) none)).run
      [.request .none (.createMap "m" .int64 .text), quiet (.begin none),
        quiet (.put ⟨1⟩ ⟨"m", .int 1⟩ (.text "v")), quiet (.put ⟨1⟩ ⟨"m", .int 2⟩ (.int 5))]
    let failed := (TxnCall.commit ⟨1⟩).action.runOn x.engine
    let y := x.step (quiet (.commit ⟨1⟩))
    failed.1.isOk = false ∧ x.engine.estimate "m" = 0 ∧ y.engine.frames = [] ∧ y.logged "m" = 0 ∧
      y.engine.estimate "m" = 23 := by
  decide +kernel

end RedoAccount

end TxnStore
