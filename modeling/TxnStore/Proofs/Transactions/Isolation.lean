import TxnStore.Proofs.Transactions.Steps

/-!
# Isolation of transactions

Any interleaving of transactions over maps that were committed at its start is answered as the
machine of overlays answers it. So no transaction reads what another one has written and not
committed, and no key is held by two of them.

Transactions are told apart by numbers of 64 bits, which start over once they are used up. The
statement is about runs that begin no transaction with the number of one that is still under way.
-/

namespace TxnStore

open TxnStore.Action

/-! ## Numbers of transactions -/

/-- The next `n` transactions get different numbers, none of them that of a transaction that is
under way. -/
def Engine.HasNumbers (e : Engine) (n : Nat) : Prop :=
  n ≤ UInt64.size ∧ ∀ i < n, e.live.get? ⟨e.nextTxn.val + UInt64.ofNat i⟩ = none

namespace OverlayMachine

/-- The same for a machine of overlays. -/
def HasNumbers (r : OverlayMachine) (n : Nat) : Prop :=
  n ≤ UInt64.size ∧ ∀ i < n, r.overlay? ⟨r.nextTxn.val + UInt64.ofNat i⟩ = none

/-- A machine goes on without starting a transaction. -/
structure StartsNone (r r' : OverlayMachine) : Prop where
  nextTxn : r'.nextTxn = r.nextTxn
  overlay? : ∀ u, r.overlay? u = none → r'.overlay? u = none

variable {r r' : OverlayMachine} {t : TxnId} {o : Overlay}

theorem StartsNone.refl (r : OverlayMachine) : StartsNone r r := ⟨rfl, fun _ h => h⟩

theorem StartsNone.setOverlay (ho : r.overlay? t = some o) (o' : Option Overlay) :
    StartsNone r (r.setOverlay t o') := by
  refine ⟨rfl, fun u hu => ?_⟩
  have hut : u ≠ t := by
    rintro rfl
    simp [ho] at hu
  simpa [OverlayMachine.setOverlay, hut] using hu

theorem StartsNone.onOverlay {α : Type} {f : Overlay → Except StoreError α × OverlayMachine}
    (hf : ∀ o, r.overlay? t = some o → StartsNone r (f o).2) :
    StartsNone r (r.onOverlay t f).2 := by
  unfold OverlayMachine.onOverlay
  cases ho : r.overlay? t with
  | none => exact StartsNone.refl r
  | some o => exact hf o ho

theorem StartsNone.write (r : OverlayMachine) (t : TxnId) (p : Place) (payload : Option Value) :
    StartsNone r (r.write t p payload).2 := by
  apply StartsNone.onOverlay
  intro o ho
  split
  · exact StartsNone.refl r
  · split
    · exact StartsNone.refl r
    · split
      · exact StartsNone.refl r
      · exact StartsNone.setOverlay ho _

theorem StartsNone.read (r : OverlayMachine) (t : TxnId) (p : Place) :
    StartsNone r (r.read t p).2 := by
  apply StartsNone.onOverlay
  intro o _
  split <;> exact StartsNone.refl r

theorem StartsNone.savepoint (r : OverlayMachine) (t : TxnId) :
    StartsNone r (r.savepoint t).2 := by
  apply StartsNone.onOverlay
  intro o _
  exact StartsNone.refl r

theorem StartsNone.rollbackTo (r : OverlayMachine) (t : TxnId) (n : Nat) :
    StartsNone r (r.rollbackTo t n).2 := by
  apply StartsNone.onOverlay
  intro o ho
  split
  · exact StartsNone.refl r
  · exact StartsNone.setOverlay ho _

theorem StartsNone.commit (r : OverlayMachine) (verdict : Option StoreError) (t : TxnId) :
    StartsNone r (r.commit verdict t).2 := by
  apply StartsNone.onOverlay
  intro o ho
  have hended := StartsNone.setOverlay ho none
  cases verdict with
  | some err => exact hended
  | none => exact ⟨hended.nextTxn, hended.overlay?⟩

theorem StartsNone.rollback (r : OverlayMachine) (t : TxnId) : StartsNone r (r.rollback t).2 := by
  apply StartsNone.onOverlay
  intro o ho
  exact StartsNone.setOverlay ho none

/-- Only the call that starts a transaction starts one. -/
theorem StartsNone.step (r : OverlayMachine) (verdict : Option StoreError) {c : TxnCall}
    (hc : c.isBegin = false) : StartsNone r (r.step verdict c).2 := by
  cases c with
  | begin isolation => simp [TxnCall.isBegin] at hc
  | read t p => exact StartsNone.read r t p
  | put t p value => exact StartsNone.write r t p (some value)
  | delete t p => exact StartsNone.write r t p none
  | savepoint t => exact StartsNone.savepoint r t
  | rollbackTo t n => exact StartsNone.rollbackTo r t n
  | commit t => exact StartsNone.commit r verdict t
  | rollback t => exact StartsNone.rollback r t
  | drop t => exact StartsNone.rollback r t

theorem HasNumbers.startsNone {n : Nat} (h : r.HasNumbers n) (hstarts : StartsNone r r') :
    r'.HasNumbers n :=
  ⟨h.1, fun i hi => hstarts.overlay? _ (by rw [hstarts.nextTxn]; exact h.2 i hi)⟩

theorem HasNumbers.start {n : Nat} (h : r.HasNumbers (n + 1)) : r.start.HasNumbers n := by
  obtain ⟨hbound, hfree⟩ := h
  -- The number that the next call starts with is one further on.
  refine ⟨by omega, fun i hi => ?_⟩
  have hsucc : r.nextTxn.val + 1 + UInt64.ofNat i = r.nextTxn.val + UInt64.ofNat (i + 1) := by
    rw [UInt64.ofNat_add, UInt64.add_assoc, UInt64.add_comm 1]
    rfl
  -- There are more words than steps, so that the numbers have not come round to the first one.
  have hne : (⟨r.nextTxn.val + UInt64.ofNat (i + 1)⟩ : TxnId) ≠ r.nextTxn := by
    intro heq
    have hval : r.nextTxn.val + UInt64.ofNat (i + 1) = r.nextTxn.val := congrArg TxnId.val heq
    have hzero : UInt64.ofNat (i + 1) = 0 := by
      simpa using hval
    have hsmall : i + 1 < UInt64.size := by omega
    have hnat := congrArg UInt64.toNat hzero
    rw [UInt64.toNat_ofNat', Nat.mod_eq_of_lt hsmall] at hnat
    exact absurd hnat (Nat.succ_ne_zero i)
  show (r.setOverlay r.nextTxn (some [])).overlay? ⟨r.nextTxn.val + 1 + UInt64.ofNat i⟩ = none
  rw [hsucc]
  simp only [setOverlay, if_neg hne]
  exact hfree (i + 1) (by omega)

/-- A call leaves the numbers that it does not use. -/
theorem HasNumbers.step {n : Nat} {c : TxnCall} (h : r.HasNumbers (n + if c.isBegin then 1 else 0))
    (verdict : Option StoreError) : (r.step verdict c).2.HasNumbers n := by
  cases hc : c.isBegin with
  | true =>
    rw [hc, if_pos rfl] at h
    cases c with
    | begin isolation => exact h.start
    | _ => simp [TxnCall.isBegin] at hc
  | false =>
    rw [hc, if_neg Bool.false_ne_true] at h
    exact h.startsNone (StartsNone.step r verdict hc)

end OverlayMachine

/-- A transaction that starts gets a number that no transaction under way has. -/
theorem Agrees.live_nextTxn {e : Engine} {r : OverlayMachine} (h : Agrees e r) {n : Nat}
    (hnew : r.HasNumbers (n + 1)) : e.live.get? e.nextTxn = none := by
  have hfree := hnew.2 0 (by omega)
  have hlog := h.logs r.nextTxn
  have hzero : (⟨r.nextTxn.val + UInt64.ofNat 0⟩ : TxnId) = r.nextTxn := by simp
  rw [hzero] at hfree
  rw [hfree, h.nextTxn] at hlog
  simpa using hlog

/-- A call that starts a transaction finds a number for it. -/
theorem Agrees.fresh {e : Engine} {r : OverlayMachine} (h : Agrees e r) {n : Nat} {c : TxnCall}
    (hnew : r.HasNumbers (n + if c.isBegin then 1 else 0)) (hc : c.isBegin = true) :
    e.live.get? e.nextTxn = none := by
  apply h.live_nextTxn (n := n)
  rwa [if_pos hc] at hnew

/-! ## Runs -/

/-- Served calls are answered as the machine of overlays answers them. -/
theorem Agrees.serve {e : Engine} {r : OverlayMachine} (h : Agrees e r) (calls : List TxnCall)
    (hnew : r.HasNumbers (calls.countP TxnCall.isBegin)) :
    (e.serve calls).1 = (r.run (e.judged calls)).1 ∧
      Agrees (e.serve calls).2 (r.run (e.judged calls)).2 := by
  -- Each call is a step of both sides; what is left of the run starts where the step ends.
  induction calls generalizing e r with
  | nil => exact ⟨rfl, h⟩
  | cons c rest ih =>
    rw [List.countP_cons] at hnew
    have hnext := hnew.step (e.verdict c)
    obtain ⟨hanswer, hagrees⟩ := h.step c (h.fresh hnew)
    obtain ⟨hanswers, hagrees'⟩ := ih hagrees hnext
    exact ⟨List.cons_eq_cons.mpr ⟨hanswer, hanswers⟩, hagrees'⟩

/-! ## Where a run starts -/

/-- The maps of an engine hold committed versions only, and no transaction has written anything. -/
structure Engine.IsQuiet (e : Engine) : Prop where
  settled : ∀ {name m key v}, e.maps.get? name = some m → m.get? key = some v →
    v = .settled v.payload
  unwritten : ∀ {t txn}, e.live.get? t = some txn → txn.log = []

theorem Engine.isQuiet_of_bare {e : Engine} (hidle : e.live = Table.empty)
    (hbare : ∀ p, slotAt e.maps p = none) : e.IsQuiet where
  settled {name m key v} hm hv := by
    have hslot := hbare ⟨name, key⟩
    rw [slotAt, hm, Option.bind_some, hv] at hslot
    cases hslot
  unwritten hl := by
    rw [hidle] at hl
    cases hl

/-- The machine of overlays that an engine starts as. -/
def OverlayMachine.ofEngine (e : Engine) : OverlayMachine where
  isOpen := e.maps.contains
  committed p := (slotAt e.maps p).bind Version.payload
  overlay? t := (e.live.get? t).map fun _ => []
  begun := e.live.keys
  nextTxn := e.nextTxn

theorem Engine.IsQuiet.agrees {e : Engine} (h : e.IsQuiet) : Agrees e (.ofEngine e) := by
  -- A quiet engine has no writes under way, and no place is held by anybody.
  have hnone : ∀ t p, (OverlayMachine.ofEngine e).holds t p = false := by
    intro t p
    cases hl : e.live.get? t <;> simp [OverlayMachine.holds, OverlayMachine.ofEngine, hl]
  refine ⟨⟨fun _ => rfl, ?_, ?_⟩, ?_, rfl, ?_, ?_⟩
  · -- There is no held place to speak of.
    intro t o p q _ ho hq
    exact absurd (OverlayMachine.holds_of_entry? ho hq) (by simp [hnone])
  · -- A free place shows what the engine has committed there, since all its slots are settled.
    intro p _ _
    cases hm : e.maps.get? p.map with
    | none => exact .inr (by simp [slotAt, OverlayMachine.ofEngine, hm])
    | some m =>
      cases hv : m.get? p.key with
      | none => exact .inr (by simp [slotAt, OverlayMachine.ofEngine, hm, hv])
      | some v =>
        refine .inl ?_
        simp only [slotAt, OverlayMachine.ofEngine, hm, hv, Option.bind_some]
        rw [← h.settled hm hv]
  · intro t u p ht _
    exact absurd ht (by simp [hnone])
  · -- The overlay of a live transaction is empty, like its log.
    intro t
    cases hl : e.live.get? t with
    | none => simp [OverlayMachine.ofEngine, hl]
    | some txn => simp [OverlayMachine.ofEngine, hl, h.unwritten hl, Overlay.records]
  · -- Every transaction that is live in the engine counts as begun.
    intro t ht
    have hlive : (e.live.get? t).isSome = true := by simpa [OverlayMachine.ofEngine] using ht
    exact Table.mem_keys_of_contains hlive

theorem Engine.HasNumbers.ofEngine {e : Engine} {n : Nat} (h : e.HasNumbers n) :
    (OverlayMachine.ofEngine e).HasNumbers n :=
  ⟨h.1, fun i hi => by simpa [OverlayMachine.ofEngine] using h.2 i hi⟩

/-! ## What transactions hold -/

/-- A transaction under way has a surviving write to a place. -/
def Engine.HasWritten (e : Engine) (t : TxnId) (p : Place) : Prop :=
  ∃ txn, e.live.get? t = some txn ∧ ∃ w ∈ txn.log, w.map = p.map ∧ w.key = p.key

namespace Overlay

/-- An overlay has an entry exactly for the places of its records. -/
theorem exists_mem_records {t : TxnId} {committed : Place → Option Value} {o : Overlay}
    {p : Place} :
    (∃ w ∈ records t committed o, w.map = p.map ∧ w.key = p.key) ↔
      (o.entry? p).isSome = true := by
  induction o with
  | nil => simp [records]
  | cons w older ih =>
    -- A record names the place of its write.
    have hplace : ((recordOver t committed older w).map = p.map ∧
        (recordOver t committed older w).key = p.key) ↔ p = w.1 := by
      show w.1.map = p.map ∧ w.1.key = p.key ↔ p = w.1
      constructor
      · rintro ⟨hmap, hkey⟩
        exact (Place.ext hmap hkey).symm
      · rintro rfl
        exact ⟨rfl, rfl⟩
    simp only [records, List.mem_cons, exists_eq_or_imp, hplace, ih, entry?_cons]
    by_cases hp : p = w.1 <;> simp [hp]

end Overlay

theorem Agrees.hasWritten_iff {e : Engine} {r : OverlayMachine} (h : Agrees e r) {t : TxnId}
    {p : Place} : e.HasWritten t p ↔ r.holds t p = true := by
  rw [OverlayMachine.holds_iff, Engine.HasWritten]
  rcases h.live_cases t with ⟨hl, ho⟩ | ⟨txn, o, hl, ho, hlog⟩
  · simp [hl, ho]
  · simp only [hl, ho, Option.some.injEq, exists_eq_left', hlog, List.mem_reverse]
    exact Overlay.exists_mem_records

/-- At a place that another transaction has written, a transaction reads what was committed. -/
theorem Agrees.read_of_hasWritten {e : Engine} {r : OverlayMachine} (h : Agrees e r) {t u : TxnId}
    {p : Place} (htu : t ≠ u) (hlive : (e.live.get? t).isSome = true)
    (hmap : e.maps.contains p.map = true) (hu : e.HasWritten u p) :
    (Engine.read t p.map p.key).runOn e = (.ok (r.committed p), e) := by
  obtain ⟨txn, hl⟩ := Option.isSome_iff_exists.mp hlive
  obtain ⟨m, hm⟩ := Option.isSome_iff_exists.mp hmap
  -- The reader is live in the engine, hence it has an overlay in the machine.
  obtain ⟨o, ho⟩ : ∃ o, r.overlay? t = some o := by
    rcases h.live_cases t with ⟨hnone, -⟩ | ⟨-, o, -, ho, -⟩
    · simp [hl] at hnone
    · exact ⟨o, ho⟩
  -- The place is held by the other transaction, hence not by this one.
  have hentry : o.entry? p = none := by
    cases hq : o.entry? p with
    | none => rfl
    | some q =>
      have ht : r.holds t p = true := OverlayMachine.holds_of_entry? ho hq
      exact absurd (h.exclusive ht (h.hasWritten_iff.mp hu)) htu
  -- What the machine sees without an entry is what is committed.
  have hopen : r.isOpen p.map = true := (h.slots.isOpen p.map).trans hmap
  have hsee := h.slots.visible hopen ho
  rw [slotAt, hm, Option.bind_some, OverlayMachine.see, hentry, Option.getD_none] at hsee
  rw [Engine.runOn_read, hl, hm]
  simp only [hsee]

/-! ## The main statement -/

/-- Every answer to a run of transactions is that of the machine of overlays, where a commit that
cannot be logged is refused. At the end of the run, hence at every point of it, no place is written
by two unfinished transactions, and a transaction reads what was committed at the places that
another one has written. -/
theorem serve_eq_run_overlays (e : Engine) (hquiet : e.IsQuiet) (calls : List TxnCall)
    (hnumbers : e.HasNumbers (calls.countP TxnCall.isBegin)) :
    (e.serve calls).1 = ((OverlayMachine.ofEngine e).run (e.judged calls)).1 ∧
      (∀ t u p, (e.serve calls).2.HasWritten t p → (e.serve calls).2.HasWritten u p → t = u) ∧
      ∀ t u p, t ≠ u → ((e.serve calls).2.live.get? t).isSome = true →
        (e.serve calls).2.maps.contains p.map = true → (e.serve calls).2.HasWritten u p →
        (Engine.read t p.map p.key).runOn (e.serve calls).2 =
          (.ok (((OverlayMachine.ofEngine e).run (e.judged calls)).2.committed p),
            (e.serve calls).2) := by
  obtain ⟨hanswers, hagrees⟩ := hquiet.agrees.serve calls hnumbers.ofEngine
  refine ⟨hanswers, ?_, ?_⟩
  · intro t u p ht hu
    exact hagrees.exclusive (hagrees.hasWritten_iff.mp ht) (hagrees.hasWritten_iff.mp hu)
  · intro t u p htu hlive hmap hu
    exact hagrees.read_of_hasWritten htu hlive hmap hu

/-- An engine in memory with one map, of integers under integers. -/
def Engine.withIntegers (map : String) : Engine :=
  { Engine.inMemory with
    maps := Table.empty.insert map (VersionMap.empty map .int64 .int64) }

theorem Engine.isQuiet_withIntegers (map : String) : (Engine.withIntegers map).IsQuiet := by
  refine ⟨fun {name m key v} hm hv => ?_, fun {t txn} ht => ?_⟩
  · have hget := Table.get?_insert Table.empty map name (VersionMap.empty map .int64 .int64)
    have hempty : m = VersionMap.empty map .int64 .int64 := by
      simp_all [Engine.withIntegers]
    simp [hempty, VersionMap.empty, VersionMap.get?] at hv
  · exact absurd ht (by simp [Engine.withIntegers, Engine.inMemory, Engine.bare])

/-- Two transactions write the same key. The second one is refused and still sees nothing there,
until the first one has committed. -/
theorem serve_eq_run_overlays_of_rivals :
    let e := Engine.withIntegers "m"
    let p : Place := ⟨"m", .int 7⟩
    let calls : List TxnCall :=
      [.begin none, .begin none, .put ⟨1⟩ p (.int 1), .put ⟨2⟩ p (.int 2), .read ⟨2⟩ p, .commit ⟨1⟩,
        .read ⟨2⟩ p]
    e.IsQuiet ∧ e.HasNumbers (calls.countP TxnCall.isBegin) ∧
      (e.serve calls).1 = ((OverlayMachine.ofEngine e).run (e.judged calls)).1 ∧
      (e.serve calls).1 =
        [.ok (.begun ⟨1⟩), .ok (.begun ⟨2⟩), .ok .done, .error (.writeConflict "m" ⟨1⟩),
          .ok (.found none), .ok .done, .ok (.found (some (.int 1)))] := by
  intro e p calls
  have hquiet : e.IsQuiet := Engine.isQuiet_withIntegers "m"
  have hnumbers : e.HasNumbers (calls.countP TxnCall.isBegin) := ⟨by decide, fun _ _ => rfl⟩
  exact ⟨hquiet, hnumbers, (serve_eq_run_overlays e hquiet calls hnumbers).1, rfl⟩

end TxnStore
