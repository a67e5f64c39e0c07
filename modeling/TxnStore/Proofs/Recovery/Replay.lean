import TxnStore.Engine.Replay
import TxnStore.Proofs.Recovery.Logging

/-!
# Replaying a log

A replay over maps that were opened empty fills them with what the records of the log leave
committed. It passes over the records of maps that are not open, and it cannot fail if the other
records were written with the codecs that their maps have.
-/

namespace TxnStore

open TxnStore.Action

/-! ## Frames and the records in them -/

/-- A record as it is logged while its map has the codecs of a book. -/
def RedoRecord.loggedWith (codecs : CodecBook) (r : RedoRecord) : LoggedRecord := ⟨r, codecs r.map⟩

/-- The payloads of the frames are the bytes of the records, in the same order. The maps of one
frame have their codecs from one book, those of another frame may have others. -/
inductive Stores : List Frame → List LoggedRecord → Prop where
  | nil : Stores [] []
  | cons {f : Frame} {codecs : CodecBook} {rs : List RedoRecord} {frames : List Frame}
      {history : List LoggedRecord} :
      RedoRecord.encodeAll codecs rs = .ok f.payload → Stores frames history →
        Stores (f :: frames) (rs.map (RedoRecord.loggedWith codecs) ++ history)

/-- One more frame behind the others. -/
theorem Stores.concat {codecs : CodecBook} {frames : List Frame} {history : List LoggedRecord}
    (h : Stores frames history) {f : Frame} {rs : List RedoRecord}
    (hf : RedoRecord.encodeAll codecs rs = .ok f.payload) :
    Stores (frames ++ [f]) (history ++ rs.map (RedoRecord.loggedWith codecs)) := by
  induction h with
  | nil =>
    have hone := Stores.cons hf Stores.nil
    rwa [List.append_nil] at hone
  | cons hg _ ih =>
    rw [List.append_assoc]
    exact Stores.cons hg ih

/-- Where all that was logged was written with the codecs of one book. -/
def Carries (codecs : CodecBook) (frames : List Frame) (history : List RedoRecord) : Prop :=
  Stores frames (history.map (RedoRecord.loggedWith codecs))

/-- Only the codecs of the maps that the records name count. -/
theorem Carries.congr {codecs codecs' : CodecBook} {frames : List Frame} {history : List RedoRecord}
    (h : Carries codecs frames history)
    (hsame : ∀ r ∈ history, codecs r.map = codecs' r.map) : Carries codecs' frames history := by
  have hlogged : history.map (RedoRecord.loggedWith codecs') =
      history.map (RedoRecord.loggedWith codecs) := by
    apply List.map_congr_left
    intro r hr
    rw [RedoRecord.loggedWith, RedoRecord.loggedWith, hsame r hr]
  rw [Carries, hlogged]
  exact h

/-! ## What a replay leaves in the maps -/

/-- The open maps have their codecs and show exactly the given payloads, all of them committed. -/
structure Shows (codecs : CodecBook) (isOpen : String → Bool) (maps : Table String VersionMap)
    (committed : Place → Option Value) : Prop where
  codecs : ∀ name, codecsOf maps name = if isOpen name then some (codecs name) else none
  slots : ∀ p, isOpen p.map = true →
    slotAt maps p = (committed p).map fun v => Version.settled (some v)

namespace Engine

variable {codecs : CodecBook} {isOpen : String → Bool} {committed : Place → Option Value}

theorem get?_replayInto (m : VersionMap) (key : Value) (payload : Option Value) (j : Value) :
    (replayInto m key payload).get? j =
      if j = key then payload.map (fun v => Version.settled (some v)) else m.get? j := by
  cases payload with
  | none => exact m.get?_remove key j
  | some v => exact m.get?_put key j _

/-- A record is replayed if its map is open, and passed over otherwise, whatever its codecs. -/
theorem runOn_replayRecord {e : Engine} (h : Shows codecs isOpen e.maps committed)
    {r : RedoRecord} {book : CodecBook}
    (hbook : isOpen r.map = true → book r.map = codecs r.map) {bs : List UInt8}
    (hr : r.encode (book r.map).1 (book r.map).2 = .ok bs) :
    ∃ maps, (replayRecord (r.raw book)).runOn e = (.ok (isOpen r.map), { e with maps }) ∧
      Shows codecs isOpen maps (RedoRecord.applyTo committed r) := by
  have hname := h.codecs r.map
  unfold replayRecord
  rw [runOn_bind, runOn_get, RedoRecord.raw_map]
  cases hm : e.maps.get? r.map with
  | none =>
    -- The map of the record is not open, and nothing of the record is seen.
    have hclosed : isOpen r.map = false := by
      cases ho : isOpen r.map with
      | false => rfl
      | true => simp [codecsOf, hm, ho] at hname
    refine ⟨e.maps, by simp only [hm, hclosed, runOn_pure], h.codecs, fun p hopen => ?_⟩
    have hne : p ≠ r.place := by
      -- The place is in an open map, and the record is not.
      rintro rfl
      exact absurd hopen (by simp [RedoRecord.place, hclosed])
    rw [h.slots p hopen, RedoRecord.applyTo, if_neg hne]
  | some m =>
    have hopen : isOpen r.map = true := by
      cases ho : isOpen r.map with
      | true => rfl
      | false => simp [codecsOf, hm, ho] at hname
    have hcodecs : codecs r.map = (m.keyCodec, m.valueCodec) := by
      simpa [codecsOf, hm, hopen] using hname.symm
    -- The map has the codecs with which the record was written, so that it is decoded.
    have hdecode := RedoRecord.decode_raw hr
    rw [hbook hopen, hcodecs] at hdecode
    refine ⟨e.maps.insert r.map (replayInto m r.key r.payload), ?_, ?_, ?_⟩
    · simp only [hm, hdecode, hopen, runOn_bind, runOn_set, runOn_pure]
    · -- Replaying into a map leaves its codecs.
      have hkey : (replayInto m r.key r.payload).keyCodec = m.keyCodec := by
        unfold replayInto
        split <;> rfl
      have hvalue : (replayInto m r.key r.payload).valueCodec = m.valueCodec := by
        unfold replayInto
        split <;> rfl
      intro name
      rw [codecsOf_insert hm hkey hvalue, h.codecs]
    · intro p hp
      have hslot := slotAt_insert (p := r.place) hm (get?_replayInto m r.key r.payload) p
      rw [RedoRecord.applyTo]
      -- The record decides at its own place, and nowhere else.
      by_cases hplace : p = r.place
      · rw [if_pos hplace] at hslot ⊢
        exact hslot
      · rw [if_neg hplace] at hslot ⊢
        exact hslot.trans (h.slots p hp)

theorem runOn_replayRecords {e : Engine} (h : Shows codecs isOpen e.maps committed)
    {rs : List RedoRecord} {book : CodecBook}
    (hbook : ∀ r ∈ rs, isOpen r.map = true → book r.map = codecs r.map) {bs : List UInt8}
    (hrs : RedoRecord.encodeAll book rs = .ok bs) (stats : ReplayStats) :
    ∃ stats' maps, (replayRecords stats (rs.map (RedoRecord.raw book))).runOn e =
        (.ok stats', { e with maps }) ∧
      Shows codecs isOpen maps (RedoRecord.applyAll committed rs) := by
  induction rs generalizing e committed stats bs with
  | nil => exact ⟨stats, e.maps, rfl, h⟩
  | cons r rest ih =>
    obtain ⟨head, more, hhead, hmore, -⟩ := RedoRecord.encodeAll_cons hrs
    obtain ⟨maps, hrun, hshows⟩ := runOn_replayRecord h (hbook r List.mem_cons_self) hhead
    have hbook' := fun r hr => hbook r (List.mem_cons_of_mem _ hr)
    rw [List.map_cons, replayRecords, runOn_bind, hrun]
    -- The counts differ by what became of the first record.
    cases isOpen r.map with
    | true => exact ih (e := { e with maps }) hshows hbook' hmore _
    | false => exact ih (e := { e with maps }) hshows hbook' hmore _

/-! ### From the log to its frames -/

/-- Replays frames one after the other, however they are stored. -/
def replayAll (stats : ReplayStats) : List Frame → Action Engine ReplayStats
  | [] => return stats
  | f :: rest => do
    let records ← Action.ofExcept f.records
    let stats ← replayRecords stats records
    replayAll { stats with frames := stats.frames + 1, lastLsn := some f.lsn } rest

/-- The frames before which a scan stands are replayed. -/
theorem runOn_replayFrames {log : RedoLog} {frames : List Frame} {scan : LogScan}
    (hread : log.device.faults.read = false) (hbefore : scan.StandsBefore log.device frames 0)
    {bound : Nat} (hbound : frames.length < bound) (stats : ReplayStats) (e : Engine) :
    (replayFrames log bound stats scan).runOn e = (replayAll stats frames).runOn e := by
  induction frames generalizing scan bound stats e with
  | nil =>
    obtain ⟨bound, rfl⟩ : ∃ n, bound = n + 1 := ⟨bound - 1, by omega⟩
    rw [replayFrames, runOn_bind, nextFrame, runOn_ofExcept, hbefore.next_nil]
    rfl
  | cons f frames ih =>
    obtain ⟨bound, rfl⟩ : ∃ n, bound = n + 1 := ⟨bound - 1, by omega⟩
    rw [List.length_cons] at hbound
    obtain ⟨scan', hnext, hafter, -⟩ := hbefore.next_cons hread
    rw [replayFrames, replayAll, runOn_bind, nextFrame, runOn_ofExcept, hnext]
    simp only
    -- The frame has the same records on both sides, and the scan matters only once they are
    -- replayed.
    rw [runOn_bind, runOn_bind, runOn_ofExcept]
    cases f.records with
    | error err => rfl
    | ok records =>
      simp only [runOn_bind]
      rcases (replayRecords stats records).runOn e with ⟨err | stats', e'⟩
      · rfl
      · exact ih hafter (by omega) _ e'

/-- A replay of a log is one of the frames in it. -/
theorem runOn_recover_eq {log : RedoLog} {frames : List Frame} {e : Engine} (hlog : e.log = some log)
    (hread : log.device.faults.read = false) (hholds : log.Holds frames) :
    recover.runOn e = (replayAll ⟨0, 0, 0, none⟩ frames).runOn e := by
  obtain ⟨rest, hbytes⟩ := hholds.stored
  -- The scan starts before the frames of the log, and its bound exceeds their number.
  have hbefore := LogScan.standsBefore_start hholds.sequence hbytes.symm
  rw [← hholds.appendOffset] at hbefore
  have hbound : frames.length < log.appendOffset + 1 := by
    have hcount := Frame.length_le_encodeAll log.header.salt frames
    rw [hholds.appendOffset, LogHeader.contents, List.length_append]
    omega
  rw [recover, runOn_bind, runOn_get]
  simp only [hlog]
  exact runOn_replayFrames hread hbefore hbound ⟨0, 0, 0, none⟩ e

/-! ### From the frames to the maps -/

theorem runOn_replayAll {frames : List Frame} {history : List LoggedRecord} {e : Engine}
    (h : Shows codecs isOpen e.maps committed)
    (hshort : ∀ f ∈ frames, f.payload.length < UInt32.size) (hstores : Stores frames history)
    (hreads : ∀ l ∈ history, isOpen l.record.map = true → l.codecs = codecs l.record.map)
    (stats : ReplayStats) :
    ∃ stats' maps, (replayAll stats frames).runOn e = (.ok stats', { e with maps }) ∧
      Shows codecs isOpen maps
        (RedoRecord.applyAll committed (history.map LoggedRecord.record)) := by
  induction hstores generalizing e committed stats with
  | nil => exact ⟨stats, e.maps, rfl, h⟩
  | @cons f book rs frames history hf _ ih =>
    have hrecords : f.records = .ok (rs.map (RedoRecord.raw book)) :=
      RedoRecord.split_encodeAll (hshort f List.mem_cons_self) hf
    have hbook : ∀ r ∈ rs, isOpen r.map = true → book r.map = codecs r.map := fun r hr =>
      hreads (r.loggedWith book) (List.mem_append_left _ (List.mem_map_of_mem hr))
    obtain ⟨stats₁, maps, hrun, hshows⟩ := runOn_replayRecords h hbook hf stats
    have hrs : (rs.map (RedoRecord.loggedWith book)).map LoggedRecord.record = rs := by
      rw [List.map_map]
      exact List.map_id rs
    rw [replayAll]
    -- The frame has its records, which are replayed with the codecs of their book.
    simp only [runOn_bind, hrecords, runOn_ofExcept, hrun]
    rw [List.map_append, hrs, RedoRecord.applyAll_append]
    exact ih (e := { e with maps }) hshows (fun g hg => hshort g (List.mem_cons_of_mem _ hg))
      (fun l hl => hreads l (List.mem_append_right _ hl)) _

/-- A replay fills the maps with what the records of the log leave committed, if those of open maps
were written with the codecs that the maps have. -/
theorem runOn_recover {log : RedoLog} {frames : List Frame} {history : List LoggedRecord}
    {e : Engine} (h : Shows codecs isOpen e.maps committed) (hlog : e.log = some log)
    (hserves : log.Serves frames) (hstores : Stores frames history)
    (hreads : ∀ l ∈ history, isOpen l.record.map = true → l.codecs = codecs l.record.map) :
    ∃ stats maps, recover.runOn e = (.ok stats, { e with maps }) ∧
      Shows codecs isOpen maps
        (RedoRecord.applyAll committed (history.map LoggedRecord.record)) := by
  have hread : log.device.faults.read = false := by
    rw [hserves.faultless]
    rfl
  have hshort : ∀ f ∈ frames, f.payload.length < UInt32.size := fun f hf =>
    hserves.holds.sequence.short hf
  rw [runOn_recover_eq hlog hread hserves.holds]
  exact runOn_replayAll h hshort hstores hreads ⟨0, 0, 0, none⟩

end Engine

end TxnStore
