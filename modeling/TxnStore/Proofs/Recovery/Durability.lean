import TxnStore.Proofs.Recovery.Reopening
import TxnStore.Proofs.Transactions.MapChanges

/-!
# What is committed is there again after a stop

An engine without faults below it can be lost at any time. The engine that is opened in its place
has the same maps, and after it has replayed the log its slots hold what was committed last, and
nothing else. For this the log carries the records of all commits, written with the codecs of the
maps, the catalog defines the maps that are open, and the committed payloads are those that the
records leave.
-/

namespace TxnStore

open TxnStore.Action

/-- A call is taken alike by an engine and by the machine of overlays, which learns the engine's
answer. -/
theorem Agrees.step_refusal {e : Engine} {r : OverlayMachine} (h : Agrees e r) (c : TxnCall)
    (hnew : c.isBegin = true → e.live.get? e.nextTxn = none) :
    Agrees (c.action.runOn e).2 (r.step (refusal? (c.action.runOn e).1) c).2 := by
  obtain ⟨hanswer, hagrees⟩ := h.step c hnew
  rw [hanswer, OverlayMachine.step_refusal?]
  exact hagrees

namespace Agrees

variable {e e' : Engine} {r : OverlayMachine}

theorem commit_refusal (h : Agrees e r) {t : TxnId} {answer : Except StoreError Unit}
    (hrun : (Engine.commit t).runOn e = (answer, e')) :
    Agrees e' (r.step (refusal? (answer.map fun _ => .done)) (.commit t)).2 := by
  have hagrees := h.step_refusal (.commit t) fun hbegin => absurd hbegin (by simp [TxnCall.isBegin])
  rwa [TxnCall.action, runOn_map, hrun] at hagrees

/-- A commit that succeeds lays an overlay down, and its records are those of the overlay. -/
theorem commit_ok (h : Agrees e r) {t : TxnId} (hrun : (Engine.commit t).runOn e = (.ok (), e')) :
    ∃ o, e.recordsOf t = UndoLog.toRedo r.isOpen (Overlay.records t r.committed o).reverse ∧
      (r.step none (.commit t)).2 = r.settle t o ∧ Agrees e' (r.settle t o) := by
  have hagrees := h.commit_refusal hrun
  rcases h.live_cases t with ⟨hl, -⟩ | ⟨txn, o, hl, ho, hwrites⟩
  · -- A commit of a transaction that is not under way does not succeed.
    rw [Engine.runOn_commit, hl] at hrun
    cases hrun
  · have hsettled : (r.step none (.commit t)).2 = r.settle t o := by
      simp only [OverlayMachine.step, OverlayMachine.answering, OverlayMachine.commit,
        OverlayMachine.onOverlay, ho]
    -- Open maps are the same on both sides, and so are the records that survive.
    have hisOpen : e.maps.contains = r.isOpen := funext fun name => (h.slots.isOpen name).symm
    have hrecords : e.recordsOf t = txn.log.toRedo r.isOpen := by
      rw [Engine.recordsOf, hl, hisOpen]
    exact ⟨o, hwrites ▸ hrecords, hsettled, hsettled ▸ hagrees⟩

end Agrees

/-! ## The invariant -/

/-- What was logged: frames, the records in them, and the codecs with which these were written. -/
structure Archive where
  codecs : CodecBook
  frames : List Frame
  history : List RedoRecord

/-- Nothing was ever done to a map of this name. -/
structure IsUntouched (r : OverlayMachine) (history : List RedoRecord) (name : String) : Prop where
  committed : ∀ {p : Place}, p.map = name → r.committed p = none
  holds : ∀ {t p}, p.map = name → r.holds t p = false
  records : ∀ record ∈ history, record.map ≠ name

/-- All that is committed can be recovered from the catalog and the log of an engine. -/
structure IsDurable (options : LogOptions) (n : MapNames) (e : Engine) (r : OverlayMachine)
    (a : Archive) : Prop where
  agrees : Agrees e r
  reopens : e.IsReopenable options a.frames
  carries : Carries a.codecs a.frames a.history
  codecs : ∀ name, codecsOf e.maps name = if r.isOpen name then some (a.codecs name) else none
  committed : ∀ {p}, r.isOpen p.map = true →
    r.committed p = RedoRecord.applyAll (fun _ => none) a.history p
  names : n.isOpen = r.isOpen
  untouched : ∀ {name}, r.isOpen name = false → n.dropped name = false →
    IsUntouched r a.history name

namespace IsDurable

variable {options : LogOptions} {n : MapNames} {e e' : Engine} {r r' : OverlayMachine} {a : Archive}

theorem isOpen_eq (h : IsDurable options n e r a) : r.isOpen = e.maps.contains :=
  funext h.agrees.slots.isOpen

/-! ## Calls of transactions -/

/-- What has the same log and the same maps, with the same payloads committed, stays durable. -/
theorem keeping (h : IsDurable options n e r a) (hagrees : Agrees e' r')
    (hreopens : e'.IsReopenable options a.frames)
    (hcodecs : ∀ name, codecsOf e'.maps name = codecsOf e.maps name)
    (hkeeps : OverlayMachine.KeepsCommitted r r') : IsDurable options n e' r' a where
  agrees := hagrees
  reopens := hreopens
  carries := h.carries
  codecs name := by rw [hcodecs, hkeeps.isOpen, h.codecs]
  committed hopen := by
    rw [hkeeps.committed]
    exact h.committed (hkeeps.isOpen ▸ hopen)
  names := h.names.trans hkeeps.isOpen.symm
  untouched {name} hclosed hdropped := by
    rw [hkeeps.isOpen] at hclosed
    obtain ⟨hcommitted, hholds, hrecords⟩ := h.untouched hclosed hdropped
    refine ⟨fun hp => by rw [hkeeps.committed, hcommitted hp], fun {t p} hp => ?_, hrecords⟩
    -- Who holds a place now held it before or holds it in an open map, and this map is closed.
    cases hheld : r'.holds t p with
    | false => rfl
    | true =>
      rcases hkeeps.holds hheld with hbefore | hopen
      · exact absurd hbefore (by simp [hholds hp])
      · rw [hp, hclosed] at hopen
        exact absurd hopen (by simp)

theorem call (h : IsDurable options n e r a) {c : TxnCall} (hc : c.isCommit = false)
    (hnew : c.isBegin = true → e.live.get? e.nextTxn = none) :
    IsDurable options n (c.action.runOn e).2 (r.step (refusal? (c.action.runOn e).1) c).2 a := by
  have hfooting := TxnCall.sameFooting hc e
  exact h.keeping (h.agrees.step_refusal c hnew) (h.reopens.of_sameFooting hfooting)
    hfooting.codecs (OverlayMachine.KeepsCommitted.step r _ hc)

/-- A commit whose records are logged. -/
theorem settled (h : IsDurable options n e r a) {t : TxnId} {o : Overlay} {rs : List RedoRecord}
    (hrecords : rs = UndoLog.toRedo r.isOpen (Overlay.records t r.committed o).reverse)
    (hagrees : Agrees e' (r.settle t o)) {frames : List Frame}
    (hreopens : e'.IsReopenable options frames)
    (hcodecs : ∀ name, codecsOf e'.maps name = codecsOf e.maps name)
    (hcarries : Carries a.codecs frames (a.history ++ rs)) :
    IsDurable options n e' (r.settle t o) ⟨a.codecs, frames, a.history ++ rs⟩ where
  agrees := hagrees
  reopens := hreopens
  carries := hcarries
  codecs name := (hcodecs name).trans (h.codecs name)
  committed {p} hopen := by
    have hopen₀ : r.isOpen p.map = true := hopen
    rw [RedoRecord.applyAll_append, hrecords]
    -- What the machine lays down is what the records of the commit say.
    exact OverlayMachine.committed_settle t o hopen₀ (h.committed hopen₀)
  names := h.names
  untouched {name} hclosed hdropped := by
    have hclosed₀ : r.isOpen name = false := hclosed
    obtain ⟨hcommitted, hholds, hnone⟩ := h.untouched hclosed₀ hdropped
    refine ⟨fun {p} hp => ?_, fun {u p} hp => ?_, fun record hrecord => ?_⟩
    · show (if r.isOpen p.map then r.see o p else r.committed p) = none
      -- A map that was closed all along is in none of the records and in no overlay.
      rw [hp, hclosed₀]
      exact hcommitted hp
    · cases hheld : (r.settle t o).holds u p with
      | false => rfl
      | true =>
        have hended : (r.setOverlay t none).holds u p = true := hheld
        rcases (OverlayMachine.KeepsCommitted.ended r t).holds hended with hbefore | hopen
        · exact absurd hbefore (by simp [hholds hp])
        · rw [hp, hclosed₀] at hopen
          exact absurd hopen (by simp)
    · -- The records of a commit name open maps only.
      rcases List.mem_append.mp hrecord with hold | hnew
      · exact hnone record hold
      · rintro rfl
        rw [hrecords] at hnew
        rw [UndoLog.contains_of_mem_toRedo hnew] at hclosed₀
        exact absurd hclosed₀ (by simp)

/-- A commit adds one frame at most. -/
theorem commit (h : IsDurable options n e r a) (t : TxnId)
    (hlsn : options.startLsn.val.toNat + a.frames.length + 1 < UInt64.size) :
    let c := TxnCall.commit t
    ∃ a', IsDurable options n (c.action.runOn e).2 (r.step (refusal? (c.action.runOn e).1) c).2 a' ∧
      a'.frames.length ≤ a.frames.length + 1 := by
  intro c
  obtain ⟨answer, e', hrun, hcodecs, hcases⟩ := h.reopens.commit_cases t hlsn
  rw [TxnCall.action, runOn_map, hrun]
  rcases hcases with ⟨err, rfl, hreopens⟩ | ⟨frames, rfl, hreopens, hcount, hstores⟩
  · -- Nothing was logged, and what is committed stays.
    have hagrees := h.agrees.commit_refusal hrun
    have hkeeps := OverlayMachine.KeepsCommitted.refused r err t
    exact ⟨a, h.keeping hagrees hreopens hcodecs hkeeps, Nat.le_succ _⟩
  · obtain ⟨o, hrecords, hsettled, hagrees'⟩ := h.agrees.commit_ok hrun
    -- The maps that are open have the codecs of the archive.
    have hlogged : (e.recordsOf t).map (RedoRecord.loggedWith (codecBook e.maps)) =
        (e.recordsOf t).map (RedoRecord.loggedWith a.codecs) := by
      apply List.map_congr_left
      intro record hrecord
      have hname := h.codecs record.map
      rw [hrecords] at hrecord
      rw [if_pos (UndoLog.contains_of_mem_toRedo hrecord)] at hname
      rw [RedoRecord.loggedWith, RedoRecord.loggedWith, codecBook_of_codecsOf hname]
    -- The frames carry the old records and those of the commit, under the same codecs.
    have hcarries : Carries a.codecs frames (a.history ++ e.recordsOf t) := by
      rw [Carries, List.map_append, ← hlogged]
      exact hstores _ h.carries
    refine ⟨⟨a.codecs, frames, a.history ++ e.recordsOf t⟩, ?_, hcount⟩
    show IsDurable options n e' (r.step none c).2 _
    rw [hsettled]
    exact h.settled hrecords hagrees' hreopens hcodecs hcarries

/-! ## Maps -/

theorem createMap (h : IsDurable options n e r a) {name : String} (hname : n.dropped name = false)
    (keyCodec valueCodec : Codec) :
    ∃ a', IsDurable options (n.step (.createMap name keyCodec valueCodec))
        ((Engine.createMap name keyCodec valueCodec).runOn e).2 (r.openMap name) a' ∧
      a'.frames = a.frames := by
  have hnames : (n.step (.createMap name keyCodec valueCodec)).isOpen =
      (r.openMap name).isOpen := by
    show (fun other => other = name || n.isOpen other) = fun other => other = name || r.isOpen other
    rw [h.names]
  cases hopen : r.isOpen name with
  | true =>
    rw [Engine.runOn_createMap_of_contains (by rw [← h.isOpen_eq, hopen])]
    rw [OverlayMachine.openMap_of_isOpen hopen] at hnames ⊢
    -- The map is there already, and creating it is refused.
    exact ⟨a, { h with names := hnames }, rfl⟩
  | false =>
    have hnew := h.untouched hopen hname
    have hreopens := h.reopens.createMap name keyCodec valueCodec
    obtain ⟨catalog, -, hrun⟩ := Engine.runOn_createMap h.reopens.restores
      (by rw [← h.isOpen_eq, hopen]) keyCodec valueCodec
    rw [hrun] at hreopens ⊢
    -- The name gets its codecs now; no record names it so far.
    let codecs : CodecBook := fun other =>
      if other = name then (keyCodec, valueCodec) else a.codecs other
    have hsame : ∀ record ∈ a.history, a.codecs record.map = codecs record.map := fun record hr =>
      (if_neg (hnew.records record hr)).symm
    refine ⟨⟨codecs, a.frames, a.history⟩, ⟨?_, hreopens, h.carries.congr hsame,
      fun other => ?_, fun {p} hp => ?_, hnames, fun {other} hclosed hdropped => ?_⟩, rfl⟩
    · exact h.agrees.openMap hnew.committed hnew.holds (fun _ => rfl) rfl rfl rfl
    · -- The new map has the codecs that it was given, the others have theirs.
      show codecsOf (e.maps.insert name _) other = _
      rw [codecsOf, Table.get?_insert]
      by_cases hother : other = name
      · simp [hother, OverlayMachine.openMap, codecs, VersionMap.empty]
      · simp only [if_neg hother, OverlayMachine.openMap, codecs, decide_eq_false hother,
          Bool.false_or]
        exact h.codecs other
    · -- Nothing is recorded of a new map, and nothing is committed to it.
      by_cases hpname : p.map = name
      · have hne : ∀ record ∈ a.history, record.place ≠ p := by
          rintro record hr rfl
          exact hnew.records record hr hpname
        rw [RedoRecord.applyAll_of_forall_ne hne]
        exact hnew.committed hpname
      · have hp₀ : r.isOpen p.map = true := by
          simpa [OverlayMachine.openMap, hpname] using hp
        exact h.committed hp₀
    · have hother : other ≠ name ∧ r.isOpen other = false := by
        simpa [OverlayMachine.openMap] using hclosed
      obtain ⟨hcommitted, hholds, hrecords⟩ := h.untouched hother.2 hdropped
      exact ⟨hcommitted, hholds, hrecords⟩

theorem dropMap (h : IsDurable options n e r a) (name : String) :
    IsDurable options (n.step (.dropMap name)) ((Engine.dropMap name).runOn e).2
      (r.closeMap name) a := by
  have hnames : (n.step (.dropMap name)).isOpen = (r.closeMap name).isOpen := by
    show (fun other => other ≠ name && n.isOpen other) = fun other => other ≠ name && r.isOpen other
    rw [h.names]
  cases hopen : r.isOpen name with
  | false =>
    rw [Engine.runOn_dropMap_of_not_contains (by rw [← h.isOpen_eq, hopen])]
    rw [OverlayMachine.closeMap_of_not_isOpen hopen] at hnames ⊢
    -- There is no such map, and dropping it changes nothing.
    refine { h with names := hnames, untouched := fun {other} hclosed hdropped => ?_ }
    have hdropped₀ : n.dropped other = false := by
      simpa [MapNames.step, h.names, hopen] using hdropped
    exact h.untouched hclosed hdropped₀
  | true =>
    have hreopens := h.reopens.dropMap name
    obtain ⟨catalog, -, hrun⟩ :=
      Engine.runOn_dropMap h.reopens.restores (by rw [← h.isOpen_eq, hopen])
    rw [hrun] at hreopens ⊢
    -- What is left of the engine are the other maps, as they were.
    refine ⟨h.agrees.closeMap rfl rfl rfl, hreopens, h.carries, fun other => ?_,
      fun {p} hp => ?_, hnames, fun {other} hclosed hdropped => ?_⟩
    · show codecsOf (e.maps.erase name) other = _
      have hother := h.codecs other
      rw [codecsOf] at hother ⊢
      rw [Table.get?_erase]
      by_cases hname : other = name
      · simp [hname, OverlayMachine.closeMap]
      · simp [hname, OverlayMachine.closeMap, hother]
    · have hp₀ : p.map ≠ name ∧ r.isOpen p.map = true := by
        simpa [OverlayMachine.closeMap] using hp
      exact h.committed hp₀.2
    · -- The map that was dropped just now does not count as untouched.
      have hdropped₀ : (other = name → n.isOpen name = false) ∧ n.dropped other = false := by
        simpa [MapNames.step] using hdropped
      have hother : other ≠ name := by
        intro hname
        rw [h.names, hopen] at hdropped₀
        exact absurd (hdropped₀.1 hname) (by simp)
      have hclosed₀ : r.isOpen other = false := by
        simpa [OverlayMachine.closeMap, hother] using hclosed
      obtain ⟨hcommitted, hholds, hrecords⟩ := h.untouched hclosed₀ hdropped₀.2
      exact ⟨hcommitted, hholds, hrecords⟩

end IsDurable

end TxnStore
