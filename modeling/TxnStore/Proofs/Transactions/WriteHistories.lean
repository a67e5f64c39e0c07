import TxnStore.Proofs.Log.RefusedFrames
import TxnStore.Proofs.Transactions.MapChanges
import TxnStore.Proofs.Transactions.Rows

/-!
# Histories of writes

What the transactions under way have written, told by the calls and their answers alone: each write
that was made and not undone since, with the slot that it found. The logs of an engine agree with
this history along every run, in which maps may come and go and the device of the log may fail at
any time. All maps count their rows meanwhile, and the log ends where its device ends.
-/

namespace TxnStore

open TxnStore.Action

/-! ## Histories -/

/-- The surviving writes of each transaction, the oldest first, each with the slot that it found. -/
abbrev WriteHistory := TxnId → List (Place × Option Version)

/-- What an undo makes of the slot that a write found: a committed tombstone counts as no
version. -/
def withoutTombstone (slot : Option Version) : Option Version := slot.filter fun v => !v.isTombstone

namespace WriteHistory

/-- Nothing was written yet. -/
def blank : WriteHistory := fun _ => []

/-- The history with other writes of one transaction. -/
def set (h : WriteHistory) (t : TxnId) (writes : List (Place × Option Version)) : WriteHistory :=
  fun u => if u = t then writes else h u

/-- The history after a call to an engine and its answer. A transaction that begins has no writes,
one that writes has one more, and one that goes back to a savepoint has as many as it had there. -/
def note (h : WriteHistory) (e : Engine) :
    TxnCall → Except StoreError TxnAnswer → WriteHistory
  | .begin _, .ok (.begun t) => h.set t []
  | .put t p _, .ok _ => h.set t (h t ++ [(p, slotAt e.maps p)])
  | .delete t p, .ok (.deleted true) => h.set t (h t ++ [(p, slotAt e.maps p)])
  | .rollbackTo t n, .ok _ => h.set t ((h t).take n)
  | _, _ => h

def step (h : WriteHistory) (e : Engine) : EngineRequest → WriteHistory
  | .call c => h.note e c (c.action.runOn e).1
  | _ => h

/-- The slot at a place without the surviving writes of a transaction: what the oldest of them found
there, or what is there if there are none. -/
def slotWithout (h : WriteHistory) (maps : Table String VersionMap) (t : TxnId) (p : Place) :
    Option Version :=
  match (h t).find? fun w => w.1 = p with
  | some w => withoutTombstone w.2
  | none => slotAt maps p

end WriteHistory

/-! ## The log of a transaction and its writes -/

/-- A log has a pending record of each of the writes of a transaction, which keeps what the write
found. Deletes found something. -/
structure RecordsWrites (t : TxnId) (writes : List (Place × Option Version)) (log : UndoLog) :
    Prop where
  found : writes.map (fun w => (w.1, withoutTombstone w.2)) = log.map fun r => (r.place, r.old?)
  pending : ∀ r ∈ log, r.isFinished = false
  seen : ∀ r ∈ log, r.DeletesSeen t

namespace RecordsWrites

variable {t : TxnId} {writes : List (Place × Option Version)} {log : UndoLog}

theorem nil (t : TxnId) : RecordsWrites t [] [] :=
  ⟨rfl, fun _ hr => absurd hr List.not_mem_nil, fun _ hr => absurd hr List.not_mem_nil⟩

theorem take (h : RecordsWrites t writes log) (n : Nat) :
    RecordsWrites t (writes.take n) (log.take n) where
  found := by rw [List.map_take, List.map_take, h.found]
  pending r hr := h.pending r (List.mem_of_mem_take hr)
  seen r hr := h.seen r (List.mem_of_mem_take hr)

theorem concat (h : RecordsWrites t writes log) {w : Place × Option Version} {r : UndoRecord}
    (hfound : (w.1, withoutTombstone w.2) = (r.place, r.old?)) (hpending : r.isFinished = false)
    (hseen : r.DeletesSeen t) : RecordsWrites t (writes ++ [w]) (log ++ [r]) where
  found := by rw [List.map_append, List.map_append, h.found, List.map_singleton, List.map_singleton,
    hfound]
  pending s hs := by
    rcases List.mem_append.mp hs with hold | hnew
    · exact h.pending s hold
    · rw [List.mem_singleton.mp hnew]
      exact hpending
  seen s hs := by
    rcases List.mem_append.mp hs with hold | hnew
    · exact h.seen s hold
    · rw [List.mem_singleton.mp hnew]
      exact hseen

/-- No record keeps a tombstone. -/
theorem isTombstone_old? (h : RecordsWrites t writes log) {r : UndoRecord} (hr : r ∈ log)
    {old : Version} (hold : r.old? = some old) : old.isTombstone = false := by
  have hmem : (r.place, r.old?) ∈ writes.map fun w => (w.1, withoutTombstone w.2) := by
    rw [h.found]
    exact List.mem_map_of_mem hr
  obtain ⟨w, -, hw⟩ := List.mem_map.mp hmem
  have hfound : withoutTombstone w.2 = some old := (congrArg Prod.snd hw).trans hold
  simpa using (Option.filter_eq_some_iff.mp hfound).2

/-- The oldest write to a place found what the oldest record there keeps. -/
theorem find? (h : RecordsWrites t writes log) (p : Place) :
    (writes.find? fun w => w.1 = p).map (fun w => withoutTombstone w.2) =
      (log.find? fun r => r.place = p).map UndoRecord.old? := by
  have hfind := congrArg (fun l => (l.find? fun w => w.1 = p).map Prod.snd) h.found
  simp only [List.find?_map, Option.map_map] at hfind
  exact hfind

/-- The places of the writes are those of the records. -/
theorem exists_place (h : RecordsWrites t writes log) (p : Place) :
    (∃ r ∈ log, r.place = p) ↔ ∃ w ∈ writes, w.1 = p := by
  have hplaces := congrArg (List.map Prod.fst) h.found
  rw [List.map_map, List.map_map] at hplaces
  have hmem : p ∈ writes.map Prod.fst ↔ p ∈ log.map UndoRecord.place := by
    rw [show writes.map Prod.fst = log.map UndoRecord.place from hplaces]
  rw [List.mem_map, List.mem_map] at hmem
  exact hmem.symm

end RecordsWrites

/-! ### What a write puts and keeps -/

theorem UndoRecord.old?_ofWrite (map : String) (key : Value) (old : Option Version) (v : Version) :
    (UndoRecord.ofWrite map key old v).old? = old := by
  unfold UndoRecord.ofWrite UndoRecord.old?
  cases old with
  | none => rfl
  | some old => cases hv : v.payload <;> simp

/-- A transaction puts a version of its own, and deletes only what it sees. -/
theorem Engine.eq_of_versionToWrite {t : TxnId} {map : String} {payload : Option Value}
    {current : Option Version} {v : Version}
    (h : versionToWrite t map payload current = .ok (some v)) :
    v = .written t payload (current.bind Version.lastCommitted) ∧
      (payload = none → (current.bind fun v => v.visibleTo t).isSome = true) := by
  unfold versionToWrite at h
  split at h
  · -- The slot is another's, there is nothing to delete, or the version is as stated.
    cases h
  · split at h
    · cases h
    · next hseen =>
      cases h
      refine ⟨rfl, fun hnone => ?_⟩
      -- A delete that sees nothing writes nothing, so that this one has seen something.
      cases hsees : current.bind fun v => v.visibleTo t with
      | none =>
        rw [hnone, hsees] at hseen
        exact absurd rfl hseen
      | some q => rfl

theorem withoutTombstone_some {v : Version} (h : v.isTombstone = false) :
    withoutTombstone (some v) = some v := by
  simp [withoutTombstone, h]

/-- A tombstone shows nothing to anyone. -/
theorem bind_visibleTo_withoutTombstone (slot : Option Version) (t : TxnId) :
    ((withoutTombstone slot).bind fun v => v.visibleTo t) = slot.bind fun v => v.visibleTo t := by
  cases slot with
  | none => rfl
  | some v =>
    cases htomb : v.isTombstone with
    | false => rw [withoutTombstone_some htomb]
    | true =>
      obtain ⟨hcommitted, hnone⟩ : v.committed = true ∧ v.payload = none := by
        simpa [Version.isTombstone] using htomb
      simp [withoutTombstone, htomb, Version.visibleTo, hcommitted, hnone]

/-! ## Histories that agree with the logs -/

namespace WriteHistory

/-- The logs of all transactions under way record their writes. -/
def Remembers (h : WriteHistory) (e : Engine) : Prop :=
  ∀ ⦃t txn⦄, e.live.get? t = some txn → RecordsWrites t (h t) txn.log

namespace Remembers

variable {h : WriteHistory} {e e' : Engine} {t : TxnId}

/-- Some of the transactions may be over. -/
theorem of_live (hh : h.Remembers e)
    (hlive : ∀ {u txn}, e'.live.get? u = some txn → e.live.get? u = some txn) : h.Remembers e' :=
  fun _ _ hl => hh (hlive hl)

theorem erase (hh : h.Remembers e) (hlive : e'.live = e.live.erase t) : h.Remembers e' := by
  apply hh.of_live
  intro u txn hl
  rw [hlive, Table.get?_erase] at hl
  split at hl
  · cases hl
  · exact hl

/-- The log of one transaction changes along with its writes. -/
theorem set (hh : h.Remembers e) {log : UndoLog} {writes : List (Place × Option Version)}
    (hlive : e'.live = (e.setLog t log).live) (hwrites : RecordsWrites t writes log) :
    (h.set t writes).Remembers e' := by
  intro u txn hl
  rw [hlive, Engine.get?_live_setLog] at hl
  unfold WriteHistory.set
  -- Only the transaction that has written has another log.
  by_cases hut : u = t
  · subst hut
    rw [if_pos rfl] at hl ⊢
    obtain ⟨txn₀, -, rfl⟩ := Option.map_eq_some_iff.mp hl
    exact hwrites
  · rw [if_neg hut] at hl ⊢
    exact hh hl

end Remembers

end WriteHistory

/-! ## What calls keep -/

/-- A log is left as it was, or a frame was appended to it; a refusal comes from the append. -/
theorem Engine.log_of_logWrites {t : TxnId} {writes : UndoLog} {e e' : Engine}
    {a : Except StoreError Unit} (h : (logWrites t writes).runOn e = (a, e')) :
    e'.log = e.log ∨ ∃ log log' payload b, e.log = some log ∧ e'.log = some log' ∧
      (RedoLog.append t payload).runOn log = (b, log') ∧
      ((∃ err, a = .error err) → ∃ err, b = .error err) := by
  -- Until the frame is appended, nothing but the estimates of sizes is touched.
  obtain ⟨dirty, hredo⟩ := UndoLog.writeRedo_eq writes [] e
  unfold logWrites at h
  rw [runOn_bind, runOn_get] at h
  rcases hr : (UndoLog.writeRedo writes).runOn ([], e) with ⟨err | n, bs, e₁⟩
  · -- The payload could not be encoded: no frame was tried.
    rw [hr] at hredo
    obtain rfl : e₁ = { e with dirty } := hredo
    simp only [hr, runOn_bind, runOn_set, runOn_ofExcept] at h
    cases h
    exact .inl rfl
  · rw [hr] at hredo
    obtain rfl : e₁ = { e with dirty } := hredo
    simp only [hr, runOn_bind, runOn_set, runOn_ofExcept] at h
    -- A frame is appended where there are records, and nothing is done where there are none.
    split at h
    · rw [runOn_logCommit] at h
      -- An engine without a log has nowhere to append to.
      cases hl : e.log with
      | none =>
        simp only [hl] at h
        cases h
        exact .inl rfl
      | some log =>
        simp only [hl] at h
        -- The outcome of the commit is that of the append.
        rcases happend : (RedoLog.append t bs).runOn log with ⟨err | lsn, log'⟩
        · simp only [happend] at h
          cases h
          exact .inr ⟨log, log', bs, _, rfl, rfl, happend, fun _ => ⟨err, rfl⟩⟩
        · simp only [happend] at h
          cases h
          exact .inr ⟨log, log', bs, _, rfl, rfl, happend, fun ⟨_, h⟩ => by cases h⟩
    · cases h
      exact .inl rfl

/-- The log of an engine, if there is one, ends where its device ends. -/
def Engine.LogTrimmed (e : Engine) : Prop := ∀ ⦃log⦄, e.log = some log → log.IsTrimmed

theorem Engine.LogTrimmed.of_log {e e' : Engine} (h : e.LogTrimmed) (hlog : e'.log = e.log) :
    e'.LogTrimmed := fun _ hlog' => h (hlog ▸ hlog')

theorem Engine.LogTrimmed.logWrites {t : TxnId} {writes : UndoLog} {e e' : Engine}
    {a : Except StoreError Unit} (h : e.LogTrimmed)
    (hrun : (Engine.logWrites t writes).runOn e = (a, e')) : e'.LogTrimmed := by
  intro log hlog
  rcases Engine.log_of_logWrites hrun with
    hsame | ⟨log₀, log', payload, b, hbefore, hafter, happend, -⟩
  · exact h (hsame ▸ hlog)
  · rw [hafter] at hlog
    cases hlog
    have htrimmed := (h hbefore).append t payload
    rwa [happend] at htrimmed

namespace Effect

variable {e e' : Engine} {c : TxnCall} {a : Except StoreError TxnAnswer} {h : WriteHistory}

/-- The history after a call agrees with the logs after it. -/
theorem remembers (hx : Effect e c a e') (hh : h.Remembers e) : (h.note e c a).Remembers e' := by
  cases hx with
  -- The history notes answers only, so a refusal leaves it alone, whatever was asked.
  | refused => cases c <;> exact hh
  | found | saved | unseen | closed => exact hh
  | @begun isolation =>
    intro u txn hl
    have hl' : (e.live.insert e.nextTxn
        ⟨isolation.getD e.settings.defaultIsolation, []⟩).get? u = some txn := hl
    rw [Table.get?_insert] at hl'
    show RecordsWrites u (if u = e.nextTxn then [] else h u) txn.log
    split at hl'
    · -- The new transaction has written nothing.
      next hu =>
      cases hl'
      rw [if_pos hu]
      exact .nil u
    · next hu =>
      rw [if_neg hu]
      exact hh hl'
  | @written t txn p payload m v hl hm hv =>
    obtain ⟨rfl, hseen⟩ := Engine.eq_of_versionToWrite hv
    have hslot : slotAt e.maps p = m.get? p.key := by rw [slotAt, hm, Option.bind_some]
    -- The record keeps what the history has: the slot, unless a tombstone is in it.
    let r := UndoRecord.ofWrite p.map p.key (withoutTombstone (m.get? p.key))
      (.written t payload ((m.get? p.key).bind Version.lastCommitted))
    have hold : r.old? = withoutTombstone (m.get? p.key) := UndoRecord.old?_ofWrite ..
    have hmore : RecordsWrites t (h t ++ [(p, slotAt e.maps p)]) (txn.log ++ [r]) := by
      apply (hh hl).concat
      · rw [hold, hslot]
        rfl
      · rfl
      · intro hdelete
        rw [hold, bind_visibleTo_withoutTombstone]
        exact hseen hdelete
    -- A put and a delete are noted alike.
    cases payload <;> exact hh.set rfl hmore
  | @wentBack t txn n hl _ => exact hh.set (e.live_afterRollbackTo t txn.log n) ((hh hl).take n)
  | @ended t txn _ _ hc =>
    -- Whichever way a transaction ends, its writes are forgotten and the others stay.
    have hsame := hh.erase (e.live_aborted t txn.log)
    rcases hc with rfl | rfl <;> exact hsame
  | @undone t txn _ e₁ _ hlog =>
    exact hh.erase ((e₁.live_aborted t txn.log).trans (by rw [Engine.live_of_logWrites hlog]))
  | @committed t txn e₁ _ hlog =>
    exact hh.erase ((e₁.live_committed t txn.log).trans (by rw [Engine.live_of_logWrites hlog]))

/-- All maps go on counting their rows. -/
theorem counted (hx : Effect e c a e') {r : OverlayMachine} (hagrees : Agrees e r)
    (hh : h.Remembers e) (hcounted : AllCounted e.maps) : AllCounted e'.maps := by
  -- Undoing any writes of a transaction keeps the counts.
  have hundone : ∀ {t txn}, e.live.get? t = some txn → ∀ {rs : List UndoRecord},
      (∀ r ∈ rs, r ∈ txn.log) → ∀ {e₁ : Engine}, e₁.maps = e.maps →
        AllCounted (UndoLog.revertAll rs e₁).2.maps := by
    intro t txn hl rs hrs e₁ hmaps
    apply AllCounted.revertAll
    · rw [hmaps]
      exact hcounted
    · intro r hr old hold
      exact (hh hl).isTombstone_old? (hrs r hr) hold
  cases hx with
  -- None of these touches a slot.
  | refused | found | saved | unseen | closed | begun => exact hcounted
  | @written t txn p payload m v hl hm hv =>
    obtain ⟨rfl, -⟩ := Engine.eq_of_versionToWrite hv
    exact hcounted.insert p.map ((hcounted hm).put p.key rfl)
  | @wentBack t txn n hl _ =>
    exact hundone hl (fun r hr => List.mem_of_mem_drop (List.mem_reverse.mp hr)) rfl
  -- Giving up undoes the whole log.
  | @ended t txn _ hl _ =>
    rw [Engine.maps_aborted]
    exact hundone hl (fun r hr => List.mem_reverse.mp hr) rfl
  | @undone t txn _ e₁ hl hlog =>
    rw [Engine.maps_aborted]
    exact hundone hl (fun r hr => List.mem_reverse.mp hr) (Engine.maps_of_logWrites hlog)
  | @committed t txn e₁ hl hlog =>
    have hmaps := Engine.maps_of_logWrites hlog
    -- The records of the log are those of the overlay that is made final.
    rcases hagrees.live_cases t with ⟨hnone, -⟩ | ⟨txn', o, hl', ho, hwrites⟩
    · rw [hl] at hnone
      cases hnone
    · obtain rfl := Option.some.inj (hl.symm.trans hl')
      rw [Engine.maps_committed, hwrites]
      apply AllCounted.commit_records
      · rw [hmaps]
        exact hcounted
      · intro w hw
        apply (hh hl).seen w
        rw [hwrites]
        exact List.mem_reverse.mpr hw
      · -- The slots that are made final hold the writes of the transaction.
        intro p hp hopen
        obtain ⟨q, hq⟩ := Option.isSome_iff_exists.mp hp
        rw [hmaps] at hopen ⊢
        rw [hagrees.slots.held ((hagrees.slots.isOpen p.map).trans hopen) ho hq]
        rfl

/-- No transaction is listed twice. -/
theorem nodup_keys (hx : Effect e c a e')
    (hnew : c.isBegin = true → e.live.get? e.nextTxn = none) (hnodup : e.live.keys.Nodup) :
    e'.live.keys.Nodup := by
  -- Only a transaction that begins is listed anew, under a number that is free.
  cases hx with
  | refused | found | saved | unseen | closed => exact hnodup
  | begun => exact Table.nodup_keys_insert hnodup (hnew rfl) _
  | written _ _ _ =>
    -- These change the entry of a transaction that is listed already.
    show (e.live.modify _ _).keys.Nodup
    rw [Table.keys_modify]
    exact hnodup
  | wentBack _ _ =>
    rw [Engine.live_afterRollbackTo]
    show (e.live.modify _ _).keys.Nodup
    rw [Table.keys_modify]
    exact hnodup
  | ended _ _ =>
    rw [Engine.live_aborted]
    exact Table.nodup_keys_erase hnodup _
  | undone _ hlog =>
    rw [Engine.live_aborted, Engine.live_of_logWrites hlog]
    exact Table.nodup_keys_erase hnodup _
  | committed _ hlog =>
    rw [Engine.live_committed, Engine.live_of_logWrites hlog]
    exact Table.nodup_keys_erase hnodup _

/-- The log goes on ending where its device ends. -/
theorem logTrimmed (hx : Effect e c a e') (htrimmed : e.LogTrimmed) : e'.LogTrimmed := by
  -- Only a commit touches the log.
  cases hc : c.isCommit with
  | false => exact htrimmed.of_log (hx.sameFooting hc).log
  | true =>
    cases hx with
    | refused => exact htrimmed
    | @undone t txn _ e₁ _ hlog =>
      exact (htrimmed.logWrites hlog).of_log (Engine.aborted_sameFooting e₁ t txn.log).log
    | @committed t txn e₁ _ hlog =>
      exact (htrimmed.logWrites hlog).of_log (Engine.committed_sameFooting e₁ t txn.log).log
    | @written t txn p payload _ _ _ _ _ => cases payload <;> cases hc
    | @ended t txn _ _ hc' => rcases hc' with rfl | rfl <;> cases hc
    | _ => cases hc

end Effect

/-! ## What requests keep -/

/-- The history after a request agrees with the logs after it. -/
theorem WriteHistory.Remembers.after {h : WriteHistory} {e : Engine} (hh : h.Remembers e)
    (q : EngineRequest) : (h.step e q).Remembers (e.after q) := by
  cases q with
  | call c => exact (c.effect e).remembers hh
  | createMap name keyCodec valueCodec =>
    exact hh.of_live fun hl => (e.createMap_cases name keyCodec valueCodec).1 ▸ hl
  | dropMap name => exact hh.of_live fun hl => (e.dropMap_cases name).1 ▸ hl

/-- All maps go on counting their rows, whatever is requested. -/
theorem Agrees.counted_after {e : Engine} {r : OverlayMachine} {h : WriteHistory}
    (hagrees : Agrees e r) (hh : h.Remembers e) (hcounted : AllCounted e.maps) (q : EngineRequest) :
    AllCounted (e.after q).maps := by
  cases q with
  | call c => exact (c.effect e).counted hagrees hh hcounted
  -- A new map has no rows, and its count says so.
  | createMap name keyCodec valueCodec =>
    obtain ⟨-, -, -, hcases⟩ := e.createMap_cases name keyCodec valueCodec
    rcases hcases with ⟨-, hmaps⟩ | ⟨-, -, hmaps⟩
    · rw [Engine.after, hmaps]
      exact hcounted
    · rw [Engine.after, hmaps]
      exact hcounted.insert name (VersionMap.countsRows_of_no_slot (fun _ => rfl) rfl)
  | dropMap name =>
    obtain ⟨-, -, -, hmaps⟩ := e.dropMap_cases name
    rw [Engine.after, hmaps]
    exact hcounted.erase name

/-! ## Runs -/

/-- The engine with certain calls of the device of its log set to fail. -/
def Engine.withFaults (e : Engine) (faults : DeviceFaults) : Engine :=
  { e with log := e.log.map fun log => log.withFaults faults }

/-- An engine and a history after requests one after the other, during each of which certain calls
of the device of the log fail. -/
def Engine.runNoting (e : Engine) (h : WriteHistory) :
    List (DeviceFaults × EngineRequest) → Engine × WriteHistory
  | [] => (e, h)
  | (faults, q) :: rest =>
    runNoting ((e.withFaults faults).after q) (h.step (e.withFaults faults) q) rest

/-- Whether none of the requests creates a map under a name for which an unfinished transaction has
a write. -/
def Engine.reusesNoNames (e : Engine) : List (DeviceFaults × EngineRequest) → Bool
  | [] => true
  | (faults, q) :: rest =>
    (e.withFaults faults).reusesNoName q && ((e.withFaults faults).after q).reusesNoNames rest

/-- An engine is followed by a history and a machine of overlays: both agree with its transactions,
its maps count their rows, and its log ends where its device ends. -/
structure Engine.IsFollowed (e : Engine) (h : WriteHistory) (r : OverlayMachine) : Prop where
  agrees : Agrees e r
  remembers : h.Remembers e
  counted : AllCounted e.maps
  nodup : e.live.keys.Nodup
  trimmed : e.LogTrimmed

namespace Engine.IsFollowed

variable {e : Engine} {h : WriteHistory} {r : OverlayMachine}

theorem withFaults (hf : e.IsFollowed h r) (faults : DeviceFaults) :
    (e.withFaults faults).IsFollowed h r where
  agrees := hf.agrees.of_sameWork ⟨rfl, rfl, rfl⟩
  remembers := hf.remembers
  counted := hf.counted
  nodup := hf.nodup
  trimmed log hlog := by
    obtain ⟨log₀, hlog₀, rfl⟩ := Option.map_eq_some_iff.mp hlog
    exact (hf.trimmed hlog₀).withFaults faults

/-- A request keeps the engine followed, if it creates no map under a name that is still written
to. -/
theorem step (hf : e.IsFollowed h r) {q : EngineRequest} (hq : e.reusesNoName q = true) {k : Nat}
    (hnew : r.HasNumbers (k + if q.event.isBegin then 1 else 0)) :
    ∃ r', (e.after q).IsFollowed (h.step e q) r' ∧ r'.HasNumbers k := by
  obtain ⟨r', hagrees, hnew'⟩ := hf.agrees.after hq hnew
  have hremembers := hf.remembers.after q
  have hcounted := hf.agrees.counted_after hf.remembers hf.counted q
  refine ⟨r', ?_, hnew'⟩
  cases q with
  -- A call takes a number only if it begins a transaction.
  | call c =>
    have hx := c.effect e
    exact ⟨hagrees, hremembers, hcounted, hx.nodup_keys (hf.agrees.fresh hnew) hf.nodup,
      hx.logTrimmed hf.trimmed⟩
  -- Maps come and go without a trace in the transactions and in the log.
  | createMap name keyCodec valueCodec =>
    obtain ⟨hlive, -, hlog, -⟩ := e.createMap_cases name keyCodec valueCodec
    exact ⟨hagrees, hremembers, hcounted, hlive ▸ hf.nodup, hf.trimmed.of_log hlog⟩
  | dropMap name =>
    obtain ⟨hlive, -, hlog, -⟩ := e.dropMap_cases name
    exact ⟨hagrees, hremembers, hcounted, hlive ▸ hf.nodup, hf.trimmed.of_log hlog⟩

theorem run (hf : e.IsFollowed h r) {requests : List (DeviceFaults × EngineRequest)}
    (hnames : e.reusesNoNames requests = true)
    (hnew : r.HasNumbers (requests.countP fun q => q.2.event.isBegin)) :
    ∃ r', (e.runNoting h requests).1.IsFollowed (e.runNoting h requests).2 r' := by
  induction requests generalizing e h r with
  | nil => exact ⟨r, hf⟩
  | cons q rest ih =>
    obtain ⟨faults, q⟩ := q
    rw [reusesNoNames, Bool.and_eq_true] at hnames
    rw [List.countP_cons] at hnew
    obtain ⟨r₁, hf₁, hnew₁⟩ := (hf.withFaults faults).step hnames.1 hnew
    exact ih hf₁ hnames.2 hnew₁

end Engine.IsFollowed

end TxnStore
