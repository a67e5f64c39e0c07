import TxnStore.Proofs.Transactions.MissingMaps

/-!
# Writes to maps that were dropped

Maps may be dropped and created while transactions are under way. A write to a map that was dropped
since then has no effect at the end of its transaction, as long as no other map has the name. This
is so at all times if no map is created under a name for which an unfinished transaction has a
write; otherwise the write is taken for one to the other map.
-/

namespace TxnStore

open TxnStore.Action

/-! ## Requests -/

/-- What can be asked of an open engine. -/
inductive EngineRequest where
  | call (c : TxnCall)
  | createMap (name : String) (keyCodec valueCodec : Codec)
  | dropMap (name : String)
deriving DecidableEq, Repr

namespace Engine

def after (e : Engine) : EngineRequest → Engine
  | .call c => (c.action.runOn e).2
  | .createMap name keyCodec valueCodec => ((createMap name keyCodec valueCodec).runOn e).2
  | .dropMap name => ((dropMap name).runOn e).2

/-- Whether a request creates no map under a name for which an unfinished transaction has a
write. -/
def reusesNoName (e : Engine) : EngineRequest → Bool
  | .createMap name _ _ =>
    e.maps.contains name || e.live.values.all fun txn => txn.log.all fun r => r.map ≠ name
  | _ => true

/-- Whether this is so for requests one after the other. -/
def neverReusesName (e : Engine) : List EngineRequest → Bool
  | [] => true
  | q :: rest => e.reusesNoName q && (e.after q).neverReusesName rest

/-- No log has a write to a map that is created so. -/
theorem ne_of_reusesNoName {e : Engine} {name : String} {keyCodec valueCodec : Codec}
    (h : e.reusesNoName (.createMap name keyCodec valueCodec) = true)
    (hclosed : e.maps.contains name = false) {t : TxnId} {txn : LiveTransaction}
    (hl : e.live.get? t = some txn) {r : UndoRecord} (hr : r ∈ txn.log) : r.map ≠ name := by
  have hvalue : txn ∈ e.live.values := List.mem_map_of_mem (Table.mem_of_find? hl)
  have hall : e.live.values.all (fun txn => txn.log.all fun r => r.map ≠ name) = true := by
    simpa [reusesNoName, hclosed] using h
  exact of_decide_eq_true (List.all_eq_true.mp (List.all_eq_true.mp hall txn hvalue) r hr)

/-! ### What requests do to maps -/

variable (e : Engine)

/-- Creating a map leaves the transactions and the log alone. It is refused, or there is one more
map. -/
theorem createMap_cases (name : String) (keyCodec valueCodec : Codec) :
    let x := (createMap name keyCodec valueCodec).runOn e
    x.2.live = e.live ∧ x.2.nextTxn = e.nextTxn ∧ x.2.log = e.log ∧
      ((∃ err, x.1 = .error err) ∧ x.2.maps = e.maps ∨
        x.1 = .ok () ∧ e.maps.contains name = false ∧
          x.2.maps = e.maps.insert name (VersionMap.empty name keyCodec valueCodec)) := by
  rw [createMap, runOn_bind, runOn_get]
  cases hopen : e.maps.contains name with
  | true =>
    -- A name that is taken is refused before anything is done.
    simp only [hopen, if_true]
    exact ⟨rfl, rfl, rfl, .inl ⟨⟨_, rfl⟩, rfl⟩⟩
  | false =>
    simp only [hopen, Bool.false_eq_true, if_false, runOn_bind, runOn_set, onCatalog,
      runOn_onPart]
    -- The catalog refuses the entry, or the map is added.
    rcases (Catalog.persist (.ofMap e.nextMapId name ⟨keyCodec.name, valueCodec.name⟩)).runOn
      e.catalog with ⟨err | u, catalog⟩
    · exact ⟨rfl, rfl, rfl, .inl ⟨⟨err, rfl⟩, rfl⟩⟩
    · exact ⟨rfl, rfl, rfl, .inr ⟨rfl, trivial, rfl⟩⟩

/-- A map that is dropped is gone, also if its definition could not be removed. -/
theorem dropMap_cases (name : String) :
    let e' := ((dropMap name).runOn e).2
    e'.live = e.live ∧ e'.nextTxn = e.nextTxn ∧ e'.log = e.log ∧
      e'.maps = e.maps.erase name := by
  rw [dropMap, runOn_bind, runOn_get]
  cases hopen : e.maps.contains name with
  | false =>
    -- There is nothing to drop.
    simp only [hopen, Bool.not_false, if_true, runOn_pure]
    exact ⟨trivial, trivial, trivial, (Table.erase_of_not_contains hopen).symm⟩
  | true =>
    simp only [hopen, Bool.not_true, Bool.false_eq_true, if_false, runOn_bind, runOn_set]
    -- Whether the catalog forgets the entry or not, the map is gone.
    split
    · simp only [onCatalog, runOn_bind, runOn_onPart]
      rcases (Catalog.forget ⟨.map, name⟩).runOn e.catalog with ⟨err | u, catalog⟩
      · exact ⟨rfl, rfl, rfl, rfl⟩
      · exact ⟨rfl, rfl, rfl, rfl⟩
    · exact ⟨rfl, rfl, rfl, rfl⟩

/-- Creating a map changes the maps, their next number and the catalog. -/
theorem createMap_eq (name : String) (keyCodec valueCodec : Codec) :
    ∃ catalog maps nextMapId, ((createMap name keyCodec valueCodec).runOn e).2 =
      { e with catalog, maps, nextMapId } := by
  rw [createMap, runOn_bind, runOn_get]
  cases hopen : e.maps.contains name with
  -- The same cases as above, with all that changes written out.
  | true =>
    simp only [hopen, if_true]
    exact ⟨e.catalog, e.maps, e.nextMapId, rfl⟩
  | false =>
    simp only [hopen, Bool.false_eq_true, if_false, runOn_bind, runOn_set, onCatalog,
      runOn_onPart]
    rcases (Catalog.persist (.ofMap e.nextMapId name ⟨keyCodec.name, valueCodec.name⟩)).runOn
      e.catalog with ⟨err | u, catalog⟩
    · -- A number was given away even if the entry could not be stored.
      exact ⟨catalog, e.maps, _, rfl⟩
    · exact ⟨catalog, _, _, rfl⟩

/-- Dropping a map changes the maps, the estimates and the catalog. -/
theorem dropMap_eq (name : String) :
    ∃ catalog maps dirty, ((dropMap name).runOn e).2 = { e with catalog, maps, dirty } := by
  rw [dropMap, runOn_bind, runOn_get]
  cases hopen : e.maps.contains name with
  | false =>
    simp only [hopen, Bool.not_false, if_true, runOn_pure]
    exact ⟨e.catalog, e.maps, e.dirty, rfl⟩
  | true =>
    simp only [hopen, Bool.not_true, Bool.false_eq_true, if_false, runOn_bind, runOn_set]
    split
    · simp only [onCatalog, runOn_bind, runOn_onPart]
      rcases (Catalog.forget ⟨.map, name⟩).runOn e.catalog with ⟨err | u, catalog⟩
      · exact ⟨catalog, _, e.dirty, rfl⟩
      · exact ⟨catalog, _, _, rfl⟩
    · exact ⟨e.catalog, _, _, rfl⟩

/-- The calls of transactions neither create nor drop maps. -/
theorem contains_call (c : TxnCall) (name : String) :
    (e.after (.call c)).maps.contains name = e.maps.contains name := by
  rw [after, ← isSome_codecsOf, (c.effect e).codecs name, isSome_codecsOf]

/-! ### What requests do to the logs of transactions -/

variable {e} {u : TxnId} {txn' : LiveTransaction}

/-- What a request may leave of the log of a transaction: nothing, a part that was there before, or
all of it with one pending write more, to a map that is there. -/
inductive LogAfter (e : Engine) (q : EngineRequest) (u : TxnId) : UndoLog → Prop where
  | empty : LogAfter e q u []
  | part {txn : LiveTransaction} (k : Nat) :
      e.live.get? u = some txn → LogAfter e q u (txn.log.take k)
  | more {txn : LiveTransaction} {r : UndoRecord} {c : TxnCall} :
      q = .call c → e.live.get? u = some txn → r.isFinished = false →
        e.maps.contains r.map = true → LogAfter e q u (txn.log ++ [r])

theorem LogAfter.same {q : EngineRequest} (h : e.live.get? u = some txn') :
    LogAfter e q u txn'.log := by
  have hall := LogAfter.part (q := q) txn'.log.length h
  rwa [List.take_length] at hall

/-- What a transaction that ends leaves of the others. -/
theorem LogAfter.others {q : EngineRequest} {t : TxnId}
    (h : (e.live.erase t).get? u = some txn') : LogAfter e q u txn'.log := by
  rw [Table.get?_erase] at h
  split at h
  · cases h
  · exact LogAfter.same h

/-- What a transaction with another log leaves of all of them. -/
theorem LogAfter.replaced {q : EngineRequest} {t : TxnId} {txn : LiveTransaction} {log : UndoLog}
    (hl : e.live.get? t = some txn) (hlog : LogAfter e q t log)
    (h : (e.setLog t log).live.get? u = some txn') : LogAfter e q u txn'.log := by
  rw [get?_live_setLog] at h
  split at h
  · next hut =>
    rw [hut, hl] at h
    cases h
    exact hut ▸ hlog
  · exact LogAfter.same h

theorem logAfter_call {c : TxnCall} {a : Except StoreError TxnAnswer} {e' : Engine}
    (h : Effect e c a e') (hu : e'.live.get? u = some txn') : LogAfter e (.call c) u txn'.log := by
  cases h with
  | refused | found | saved | unseen | closed => exact LogAfter.same hu
  -- The new transaction has no writes, and the others have what they had.
  | @begun isolation =>
    have hlive : (e.live.insert e.nextTxn ⟨isolation.getD e.settings.defaultIsolation, []⟩).get? u =
        some txn' := hu
    rw [Table.get?_insert] at hlive
    split at hlive
    · cases hlive
      exact .empty
    · exact LogAfter.same hlive
  | @written t txn p payload m v hl hm hv =>
    -- The map was open, or the write would have been refused.
    have hopen : e.maps.contains p.map = true := by
      rw [Table.contains, hm]
      rfl
    exact LogAfter.replaced hl (.more rfl hl rfl hopen) hu
  | @wentBack t txn n hl _ =>
    rw [live_afterRollbackTo] at hu
    exact LogAfter.replaced hl (.part n hl) hu
  -- A transaction that has ended has no log, and the others keep theirs.
  | ended _ _ =>
    rw [live_aborted] at hu
    exact LogAfter.others hu
  | @undone t txn _ _ _ hlog =>
    rw [live_aborted, live_of_logWrites hlog] at hu
    exact LogAfter.others hu
  | @committed t txn _ _ hlog =>
    rw [live_committed, live_of_logWrites hlog] at hu
    exact LogAfter.others hu

/-- The logs after a request. -/
theorem logAfter {q : EngineRequest} (h : (e.after q).live.get? u = some txn') :
    LogAfter e q u txn'.log := by
  cases q with
  | call c => exact logAfter_call (c.effect e) h
  | createMap name keyCodec valueCodec =>
    rw [after, (e.createMap_cases name keyCodec valueCodec).1] at h
    exact LogAfter.same h
  | dropMap name =>
    rw [after, (e.dropMap_cases name).1] at h
    exact LogAfter.same h

end Engine

/-! ## Writes by the drops before them -/

/-- How often maps of a name were dropped, and the writes of the transactions under way, each with
how often maps of its name had been dropped when it was made. -/
structure DropTally where
  drops : String → Nat
  dated : TxnId → List (UndoRecord × Nat)

namespace DropTally

/-- Nothing was dropped or written yet. -/
def blank : DropTally := ⟨fun _ => 0, fun _ => []⟩

variable (τ : DropTally)

/-- Whether no map of its name was dropped since a write was made. -/
def isFresh (w : UndoRecord × Nat) : Bool := w.2 = τ.drops w.1.map

/-- The writes of a transaction whose maps were not dropped since. -/
def freshLog (t : TxnId) : UndoLog := ((τ.dated t).filter τ.isFresh).map Prod.fst

/-- How many of the first writes of a transaction these are. -/
def freshBefore (t : TxnId) (n : Nat) : Nat := (((τ.dated t).take n).filter τ.isFresh).length

/-- Writes that were there before keep their date, others get that of now. -/
def redate (drops : String → Nat) (dated : List (UndoRecord × Nat)) (log : UndoLog) :
    List (UndoRecord × Nat) :=
  dated.take log.length ++ (log.drop dated.length).map fun r => (r, drops r.map)

def step (e : Engine) (q : EngineRequest) : DropTally where
  drops :=
    match q with
    | .dropMap name => fun other =>
      if other = name && e.maps.contains name then τ.drops other + 1 else τ.drops other
    | _ => τ.drops
  dated t :=
    match (e.after q).live.get? t with
    | none => []
    | some txn => redate τ.drops (τ.dated t) txn.log

/-- No map has the name of one that was dropped after the transaction wrote to it. -/
def FindsNoOther (e : Engine) (t : TxnId) : Prop :=
  ∀ w ∈ τ.dated t, τ.isFresh w = false → e.maps.contains w.1.map = false

/-- The tally has the writes of all transactions under way, which are pending. -/
structure Records (e : Engine) : Prop where
  logs : ∀ {t txn}, e.live.get? t = some txn → (τ.dated t).map Prod.fst = txn.log
  pending : ∀ {t txn}, e.live.get? t = some txn → ∀ r ∈ txn.log, r.isFinished = false

variable {τ} {e : Engine} {q : EngineRequest} {t : TxnId}

theorem redate_take (drops : String → Nat) {dated : List (UndoRecord × Nat)} {log : UndoLog}
    (h : dated.map Prod.fst = log) (k : Nat) : redate drops dated (log.take k) = dated.take k := by
  have hlength : dated.length = log.length := by rw [← h, List.length_map]
  have hnone : (log.take k).drop dated.length = [] := by
    rw [List.drop_eq_nil_iff, hlength]
    exact List.length_take_le' k log
  rw [redate, hnone, List.map_nil, List.append_nil, List.length_take, ← hlength,
    ← List.take_eq_take_min]

theorem redate_concat (drops : String → Nat) {dated : List (UndoRecord × Nat)} {log : UndoLog}
    (h : dated.map Prod.fst = log) (r : UndoRecord) :
    redate drops dated (log ++ [r]) = dated ++ [(r, drops r.map)] := by
  have hlength : dated.length = log.length := by rw [← h, List.length_map]
  rw [redate, hlength, List.drop_left, List.take_of_length_le (by simp [hlength])]
  rfl

/-- The writes after a request are a part of those before it, or one more was made to a map that is
there. -/
theorem Records.dated_step (h : τ.Records e) {txn' : LiveTransaction}
    (hl : (e.after q).live.get? t = some txn') :
    ((τ.step e q).dated t).map Prod.fst = txn'.log ∧
      ((∃ k, (τ.step e q).dated t = (τ.dated t).take k) ∨
        ∃ c r, q = .call c ∧ r.isFinished = false ∧
          (τ.step e q).dated t = τ.dated t ++ [(r, τ.drops r.map)]) := by
  have hafter := Engine.logAfter hl
  have hdated : (τ.step e q).dated t = redate τ.drops (τ.dated t) txn'.log := by
    simp only [DropTally.step, hl]
  rw [hdated]
  generalize txn'.log = log at hafter
  cases hafter with
  -- A transaction that begins: there is nothing to date.
  | empty =>
    have hnone : redate τ.drops (τ.dated t) [] = [] := by simp [redate]
    rw [hnone]
    exact ⟨rfl, .inl ⟨0, rfl⟩⟩
  -- The log is a part of the one before, and keeps its dates.
  | part k hbefore =>
    have hlog := h.logs hbefore
    rw [redate_take τ.drops hlog, List.map_take, hlog]
    exact ⟨rfl, .inl ⟨k, rfl⟩⟩
  -- The write that was added is dated by the drops of its map so far.
  | @more txn r c hcall hbefore hpending hopen =>
    have hlog := h.logs hbefore
    rw [redate_concat τ.drops hlog, List.map_append, hlog]
    exact ⟨rfl, .inr ⟨c, r, hcall, hpending, rfl⟩⟩

/-- No request finishes a write of a transaction that is under way after it. -/
theorem Records.step (h : τ.Records e) (q : EngineRequest) :
    (τ.step e q).Records (e.after q) := by
  refine ⟨fun hl => (h.dated_step hl).1, fun {t txn'} hl r hr => ?_⟩
  -- What is kept of a log is pending, and so is a write that was just made.
  have hafter := Engine.logAfter hl
  generalize txn'.log = log at hafter hr
  cases hafter with
  | empty => cases hr
  | part k hbefore => exact h.pending hbefore r (List.mem_of_mem_take hr)
  | more _ hbefore hpending _ =>
    rcases List.mem_append.mp hr with hold | hnew
    · exact h.pending hbefore r hold
    · rw [List.mem_singleton.mp hnew]
      exact hpending

/-- As long as no name is reused, no transaction finds another map in the place of one that was
dropped after it wrote to it. -/
theorem Records.findsNoOther_step (h : τ.Records e) (hfinds : ∀ t, τ.FindsNoOther e t)
    (hq : e.reusesNoName q = true) (t : TxnId) : (τ.step e q).FindsNoOther (e.after q) t := by
  intro w hw hstale
  cases hl : (e.after q).live.get? t with
  -- Of a transaction that has ended there are no writes left.
  | none =>
    simp only [DropTally.step, hl] at hw
    cases hw
  | some txn' =>
    obtain ⟨-, hdated⟩ := h.dated_step hl
    cases q with
    | call c =>
      rw [e.contains_call]
      -- A call opens no map, and the older writes find what they found.
      rcases hdated with ⟨k, hk⟩ | ⟨_, r, -, -, hmore⟩
      · rw [hk] at hw
        exact hfinds t w (List.mem_of_mem_take hw) hstale
      · rw [hmore] at hw
        rcases List.mem_append.mp hw with hold | hnew
        · exact hfinds t w hold hstale
        · -- A write that was just made is not stale.
          rw [List.mem_singleton.mp hnew] at hstale
          exact absurd hstale (by simp [isFresh, DropTally.step])
    | createMap name keyCodec valueCodec =>
      obtain ⟨hlive, -, -, hmaps⟩ := e.createMap_cases name keyCodec valueCodec
      obtain ⟨k, hk⟩ : ∃ k, (τ.step e _).dated t = (τ.dated t).take k := by
        rcases hdated with hpart | ⟨c, _, hcall, _⟩
        · exact hpart
        · cases hcall
      rw [hk] at hw
      have hold := List.mem_of_mem_take hw
      -- The map of a stale write was missing before.
      have hmissing := hfinds t w hold hstale
      rcases hmaps with ⟨-, hsame⟩ | ⟨-, hclosed, hinsert⟩
      · rw [Engine.after, hsame]
        exact hmissing
      · rw [Engine.after, hinsert, Table.contains_insert, hmissing]
        -- No transaction under way has a write to a map of the new name.
        have hbefore : e.live.get? t = some txn' := by rwa [Engine.after, hlive] at hl
        have hmem : w.1 ∈ txn'.log := by
          rw [← h.logs hbefore]
          exact List.mem_map_of_mem hold
        simpa using Engine.ne_of_reusesNoName hq hclosed hbefore hmem
    | dropMap name =>
      obtain ⟨-, -, -, hmaps⟩ := e.dropMap_cases name
      obtain ⟨k, hk⟩ : ∃ k, (τ.step e _).dated t = (τ.dated t).take k := by
        rcases hdated with hpart | ⟨c, _, hcall, _⟩
        · exact hpart
        · cases hcall
      rw [hk] at hw
      -- Dropping a map takes it away from all writes to it.
      rw [Engine.after, hmaps, Table.contains_erase]
      by_cases hname : w.1.map = name
      · simp [hname]
      · -- The maps of other names were dropped as often as before.
        have hsame : (τ.step e (.dropMap name)).isFresh w = τ.isFresh w := by
          simp [isFresh, DropTally.step, hname]
        rw [hfinds t w (List.mem_of_mem_take hw) (hsame ▸ hstale), Bool.and_false]

end DropTally

/-- An engine and its tally after requests one after the other. -/
def Engine.runTallied (e : Engine) (τ : DropTally) : List EngineRequest → Engine × DropTally
  | [] => (e, τ)
  | q :: rest => runTallied (e.after q) (τ.step e q) rest

namespace DropTally

variable {τ : DropTally} {e : Engine} {t : TxnId}

theorem Records.run (h : τ.Records e) (requests : List EngineRequest) :
    (e.runTallied τ requests).2.Records (e.runTallied τ requests).1 := by
  induction requests generalizing e τ with
  | nil => exact h
  | cons q rest ih => exact ih (h.step q)

theorem Records.findsNoOther_run (h : τ.Records e) (hfinds : ∀ t, τ.FindsNoOther e t)
    (requests : List EngineRequest) (hnames : e.neverReusesName requests = true) (t : TxnId) :
    (e.runTallied τ requests).2.FindsNoOther (e.runTallied τ requests).1 t := by
  induction requests generalizing e τ with
  | nil => exact hfinds t
  | cons q rest ih =>
    rw [Engine.neverReusesName, Bool.and_eq_true] at hnames
    exact ih (h.step q) (h.findsNoOther_step hfinds hnames.1) hnames.2

/-- All stale writes of a transaction are passed over at its end. -/
theorem Records.keepsPresent (h : τ.Records e) {txn : LiveTransaction}
    (hl : e.live.get? t = some txn) (hfinds : τ.FindsNoOther e t) :
    KeepsPresent e.maps τ.isFresh (τ.dated t) := by
  intro w hw hstale
  have hmem : w.1 ∈ txn.log := by
    rw [← h.logs hl]
    exact List.mem_map_of_mem hw
  exact ⟨h.pending hl w.1 hmem, hfinds w hw hstale⟩

end DropTally

/-! ## The main statement -/

/-- Take any requests to an engine without transactions under way, in which maps may be dropped and
created. A transaction may then have writes to maps that were dropped since. If no map has the name
of one of these, the transaction ends in every way as it would without these writes: the answer is
the same, and so are all maps with their slots and sizes, the log and everything else of the engine,
but for the count of skipped writes. And no map has such a name, as long as none is created under a
name for which an unfinished transaction has a write. -/
theorem DropTally.ends_without_stale_writes {e : Engine} (hidle : e.live = Table.empty)
    (requests : List EngineRequest) :
    let s := e.runTallied .blank requests
    (e.neverReusesName requests = true → ∀ t, s.2.FindsNoOther s.1 t) ∧
      ∀ t txn, s.1.live.get? t = some txn → s.2.FindsNoOther s.1 t →
        (s.2.dated t).map Prod.fst = txn.log ∧
          let e' := s.1.setLog t (s.2.freshLog t)
          (∀ c ∈ [TxnCall.commit t, .rollback t, .drop t],
              Engine.EndsAlike t (c.action.runOn s.1) (c.action.runOn e')) ∧
            ∀ n ≤ txn.log.length,
              Engine.EndsAlike t ((TxnCall.rollbackTo t n).action.runOn s.1)
                ((TxnCall.rollbackTo t (s.2.freshBefore t n)).action.runOn e') := by
  intro s
  -- An engine without transactions has nothing to date.
  have hfirst : DropTally.blank.Records e := by
    refine ⟨fun hl => ?_, fun hl => ?_⟩ <;>
      · rw [hidle] at hl
        cases hl
  have hrecords : s.2.Records s.1 := hfirst.run requests
  refine ⟨fun hnames t => ?_, fun t txn hl hfinds => ?_⟩
  · -- Where no name is used again the run keeps stale writes from finding a map.
    exact hfirst.findsNoOther_run (fun _ _ hw => absurd hw List.not_mem_nil) requests hnames t
  · have hlog := hrecords.logs hl
    have hkeep := hrecords.keepsPresent hl hfinds
    have hcommit := Engine.commit_leavingOut hl hlog hkeep
    have hrollback := Engine.rollback_leavingOut hl hlog hkeep
    refine ⟨hlog, fun c hc => ?_, fun n hn => ?_⟩
    · -- Each way of ending acts on the log as if the stale writes were not in it.
      simp only [List.mem_cons, List.not_mem_nil, or_false] at hc
      rcases hc with rfl | rfl | rfl
      · simp only [TxnCall.action, runOn_map]
        exact hcommit.map _
      · simp only [TxnCall.action, runOn_map]
        exact hrollback.map _
      · simp only [TxnCall.action, runOn_map, runOn_attempt]
        exact ⟨rfl, hrollback.2⟩
    · have hback := Engine.rollbackTo_leavingOut hl hlog hkeep hn
      simp only [TxnCall.action, runOn_map]
      exact hback.map _

/-- A transaction has written to two maps, one of which is dropped. Its commit does what it would do
with the write to the other map alone. -/
theorem DropTally.ends_without_stale_writes_of_two_maps :
    let requests : List EngineRequest :=
      [.createMap "kept" .int64 .text, .createMap "gone" .int64 .text, .call (.begin none),
        .call (.put ⟨1⟩ ⟨"gone", .int 1⟩ (.text "a")),
        .call (.put ⟨1⟩ ⟨"kept", .int 1⟩ (.text "b")), .dropMap "gone"]
    let s := Engine.inMemory.runTallied .blank requests
    Engine.inMemory.neverReusesName requests = true ∧ s.2.FindsNoOther s.1 ⟨1⟩ ∧
      (s.2.dated ⟨1⟩).length = 2 ∧ (s.2.freshLog ⟨1⟩).length = 1 ∧
      Engine.EndsAlike ⟨1⟩ ((TxnCall.commit ⟨1⟩).action.runOn s.1)
        ((TxnCall.commit ⟨1⟩).action.runOn (s.1.setLog ⟨1⟩ (s.2.freshLog ⟨1⟩))) := by
  intro requests s
  have hnames : Engine.inMemory.neverReusesName requests = true := by decide +kernel
  obtain ⟨hfinds, hends⟩ := DropTally.ends_without_stale_writes (e := Engine.inMemory) rfl requests
  obtain ⟨txn, hl⟩ : ∃ txn, s.1.live.get? ⟨1⟩ = some txn :=
    Option.isSome_iff_exists.mp (by decide +kernel)
  obtain ⟨-, hcalls, -⟩ := hends ⟨1⟩ txn hl (hfinds hnames ⟨1⟩)
  exact ⟨hnames, hfinds hnames ⟨1⟩, by decide +kernel, by decide +kernel,
    hcalls (.commit ⟨1⟩) List.mem_cons_self⟩

/-- A map is dropped under a transaction and created again, and another transaction commits a row to
it. The first transaction overwrites the row by its commit and removes it by its rollback. -/
theorem DropTally.recreated_map_changed :
    let p : Place := ⟨"m", .int 1⟩
    let requests : List EngineRequest :=
      [.createMap "m" .int64 .text, .call (.begin none), .call (.put ⟨1⟩ p (.text "stale")),
        .dropMap "m", .createMap "m" .int64 .text, .call (.begin none),
        .call (.put ⟨2⟩ p (.text "new")), .call (.commit ⟨2⟩)]
    let s := Engine.inMemory.runTallied .blank requests
    let slotAfter (c : TxnCall) : Option Version := slotAt (s.1.after (.call c)).maps p
    (s.2.freshLog ⟨1⟩).isEmpty = true ∧ slotAt s.1.maps p = some (.settled (some (.text "new"))) ∧
      slotAfter (.commit ⟨1⟩) = some (.settled (some (.text "stale"))) ∧
      slotAfter (.rollback ⟨1⟩) = none ∧ slotAfter (.drop ⟨1⟩) = none ∧
      slotAfter (.rollbackTo ⟨1⟩ 0) = none := by
  decide +kernel

end TxnStore
