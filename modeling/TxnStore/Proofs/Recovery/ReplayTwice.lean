import TxnStore.Proofs.Catalog.Order
import TxnStore.Proofs.Recovery.Replay
import TxnStore.Proofs.Transactions.Reachable
import TxnStore.Proofs.Values.Order

/-!
# Replaying a log twice

A second replay starts from where the first one ended, and on its way it brings back old rows and
removes new ones. Still it ends where it began. For each slot the last record about it has the last
word, in both runs; until then the slot holds what the first replay has in it at the same point, or
what it will have in the end. The counts follow, because every record changes a count by as much as
it changes the number of rows.
-/

namespace TxnStore

open TxnStore.Action

/-! ## What one replay does to the maps -/

/-- A map that was written to: its name and codecs are the same, and its count has changed by as much
as the number of its rows. -/
structure VersionMap.Counted (m m' : VersionMap) : Prop where
  name : m'.name = m.name
  keyCodec : m'.keyCodec = m.keyCodec
  valueCodec : m'.valueCodec = m.valueCodec
  rows : ∃ n n', HasLive m.get? n ∧ HasLive m'.get? n' ∧ m'.rows + n = m.rows + n'

namespace VersionMap.Counted

variable {m m' m'' : VersionMap}

theorem refl (m : VersionMap) : m.Counted m := by
  obtain ⟨n, hlive⟩ := m.exists_hasLive
  exact ⟨rfl, rfl, rfl, n, n, hlive, hlive, rfl⟩

theorem trans (h : m.Counted m') (h' : m'.Counted m'') : m.Counted m'' := by
  obtain ⟨n, n', hlive, hlive', hrows⟩ := h.rows
  obtain ⟨k, k', hmiddle, hlive'', hrows'⟩ := h'.rows
  obtain rfl := hmiddle.unique hlive'
  exact ⟨h'.name.trans h.name, h'.keyCodec.trans h.keyCodec, h'.valueCodec.trans h.valueCodec,
    n, k', hlive, hlive'', by omega⟩

/-- Where the slots are the same, so are the counts. -/
theorem rows_eq (h : m.Counted m') (hslots : ∀ key, m'.get? key = m.get? key) :
    m'.rows = m.rows := by
  obtain ⟨n, n', hlive, hlive', hrows⟩ := h.rows
  obtain rfl := hlive.unique ((funext hslots : m'.get? = m.get?) ▸ hlive')
  omega

theorem of_update {key : Value} (hname : m'.name = m.name) (hkey : m'.keyCodec = m.keyCodec)
    (hvalue : m'.valueCodec = m.valueCodec) (hother : ∀ j, j ≠ key → m'.get? j = m.get? j)
    (hrows : m'.rows + (isLive (m.get? key)).toNat = m.rows + (isLive (m'.get? key)).toNat) :
    m.Counted m' := by
  obtain ⟨n, hlive⟩ := m.exists_hasLive
  obtain ⟨n', hlive', hcount⟩ := hlive.update hother
  exact ⟨hname, hkey, hvalue, n, n', hlive, hlive', by omega⟩

theorem replayInto (m : VersionMap) (key : Value) (payload : Option Value) :
    m.Counted (Engine.replayInto m key payload) := by
  cases payload with
  | none =>
    exact of_update rfl rfl rfl (fun j hj => by rw [Engine.get?_replayInto, if_neg hj])
      (m.rows_remove key)
  | some q =>
    exact of_update rfl rfl rfl (fun j hj => by rw [Engine.get?_replayInto, if_neg hj])
      (m.rows_put key rfl)

end VersionMap.Counted

/-- The same maps are there, each of them written to. -/
def AllWritten (maps maps' : Table String VersionMap) : Prop :=
  ∀ name, Option.Rel VersionMap.Counted (maps.get? name) (maps'.get? name)

namespace AllWritten

variable {maps maps' maps'' : Table String VersionMap}

theorem refl (maps : Table String VersionMap) : AllWritten maps maps := by
  intro name
  cases maps.get? name with
  | none => exact .none
  | some m => exact .some (.refl m)

theorem insert (h : AllWritten maps maps') {name : String} {m m' : VersionMap}
    (hm : maps'.get? name = some m) (hm' : m.Counted m') :
    AllWritten maps (maps'.insert name m') := by
  intro other
  rw [Table.get?_insert]
  split
  · next hother =>
    -- The map was written to before, and now once more.
    have hold := h other
    rw [hother, hm] at hold
    cases hfirst : maps.get? other with
    | none =>
      rw [← hother, hfirst] at hold
      cases hold
    | some m₀ =>
      rw [← hother, hfirst] at hold
      cases hold with
      | some hcounted => exact .some (hcounted.trans hm')
  · exact h other

theorem codecsOf_eq (h : AllWritten maps maps') (name : String) :
    codecsOf maps' name = codecsOf maps name := by
  have hname := h name
  unfold codecsOf
  generalize maps.get? name = found at hname ⊢
  generalize maps'.get? name = found' at hname ⊢
  cases hname with
  | none => rfl
  | some hcounted =>
    rw [Option.map_some, Option.map_some, hcounted.keyCodec, hcounted.valueCodec]

end AllWritten

namespace Engine

/-- A replay writes to the maps and changes nothing else. -/
theorem recover_allWritten (e : Engine) :
    ∃ maps, (recover.runOn e).2 = { e with maps } ∧ AllWritten e.maps maps := by
  refine recover_keeps (P := fun e' => ∃ maps, e' = { e with maps } ∧ AllWritten e.maps maps) ?_
    ⟨e.maps, rfl, .refl e.maps⟩
  rintro _ r ⟨maps, rfl, hwritten⟩
  rcases replayRecord_cases { e with maps } r with ⟨err, hrun⟩ | hrun | ⟨m, key, payload, hm, -, hrun⟩
  · -- Only a record that is put into its map changes anything.
    rw [hrun]
    exact ⟨maps, rfl, hwritten⟩
  · rw [hrun]
    exact ⟨maps, rfl, hwritten⟩
  · rw [hrun]
    exact ⟨_, rfl, hwritten.insert hm (.replayInto m key payload)⟩

end Engine

/-! ## Two replays side by side -/

/-- The maps of a later replay beside those of an earlier one at the same point: they have the same
codecs, and each slot holds what it holds there, or what it held in the end. -/
structure CatchesUp (final : Place → Option Version) (maps maps' : Table String VersionMap) :
    Prop where
  codecs : ∀ name, codecsOf maps' name = codecsOf maps name
  slots : ∀ p, slotAt maps' p = slotAt maps p ∨ slotAt maps' p = final p

/-- Outcomes of an earlier and a later replay: the same answer, and maps side by side. -/
def Alongside (final : Place → Option Version) {α : Type} (x y : Except StoreError α × Engine) :
    Prop :=
  y.1 = x.1 ∧ CatchesUp final x.2.maps y.2.maps

section
variable {final : Place → Option Version} {e e' : Engine}

theorem Alongside.bind {α β : Type} {a : Action Engine α} {f : α → Action Engine β}
    (ha : Alongside final (a.runOn e) (a.runOn e'))
    (hf : ∀ x e₁ e₁', CatchesUp final e₁.maps e₁'.maps →
      Alongside final ((f x).runOn e₁) ((f x).runOn e₁')) :
    Alongside final ((a >>= f).runOn e) ((a >>= f).runOn e') := by
  rw [runOn_bind, runOn_bind]
  obtain ⟨hanswer, hmaps⟩ := ha
  revert hanswer hmaps
  rcases a.runOn e with ⟨r, e₁⟩
  rcases a.runOn e' with ⟨r', e₁'⟩
  rintro (rfl : r' = r) hmaps
  cases r' with
  | error err => exact ⟨rfl, hmaps⟩
  | ok x => exact hf x e₁ e₁' hmaps

namespace CatchesUp

/-- A record is read alike by both, and where it is put both hold the same from then on. -/
theorem replayRecord (h : CatchesUp final e.maps e'.maps) (r : RawRecord) :
    Alongside final ((Engine.replayRecord r).runOn e) ((Engine.replayRecord r).runOn e') := by
  have hcodecs := h.codecs r.map
  unfold Engine.replayRecord
  rw [runOn_bind, runOn_bind, runOn_get, runOn_get]
  cases hm : e.maps.get? r.map with
  | none =>
    cases hm' : e'.maps.get? r.map with
    | none =>
      simp only [hm, hm']
      exact ⟨rfl, h⟩
    -- An open map on one side only would have codecs on one side only.
    | some m' => simp [codecsOf, hm, hm'] at hcodecs
  | some m =>
    cases hm' : e'.maps.get? r.map with
    | none => simp [codecsOf, hm, hm'] at hcodecs
    | some m' =>
      obtain ⟨hkey, hvalue⟩ : m'.keyCodec = m.keyCodec ∧ m'.valueCodec = m.valueCodec := by
        simpa [codecsOf, hm, hm'] using hcodecs
      -- Both maps have the same codecs, and decode the record alike or not at all.
      rcases hdecode : r.decode m.keyCodec m.valueCodec with err | ⟨key, payload⟩
      · simp only [hm, hm', hkey, hvalue, hdecode]
        exact ⟨rfl, h⟩
      · simp only [hm, hm', hkey, hvalue, hdecode]
        refine ⟨rfl, fun name => ?_, fun p => ?_⟩
        · -- The record changes no codecs.
          have hcounted := VersionMap.Counted.replayInto m key payload
          have hcounted' := VersionMap.Counted.replayInto m' key payload
          show codecsOf (e'.maps.insert _ _) name = codecsOf (e.maps.insert _ _) name
          rw [codecsOf_insert hm' hcounted'.keyCodec hcounted'.valueCodec,
            codecsOf_insert hm hcounted.keyCodec hcounted.valueCodec, h.codecs]
        · have hslot := slotAt_insert (p := ⟨r.map, key⟩) hm
            (Engine.get?_replayInto m key payload) p
          have hslot' := slotAt_insert (p := ⟨r.map, key⟩) hm'
            (Engine.get?_replayInto m' key payload) p
          show slotAt (e'.maps.insert _ _) p = slotAt (e.maps.insert _ _) p ∨
            slotAt (e'.maps.insert _ _) p = final p
          rw [hslot, hslot']
          -- At the place of the record both hold the same now; elsewhere they hold what they held.
          split
          · exact .inl rfl
          · exact h.slots p

theorem replayRecords (h : CatchesUp final e.maps e'.maps) (rs : List RawRecord)
    (stats : ReplayStats) :
    Alongside final ((Engine.replayRecords stats rs).runOn e)
      ((Engine.replayRecords stats rs).runOn e') := by
  induction rs generalizing e e' stats with
  | nil => exact ⟨rfl, h⟩
  | cons r rest ih =>
    refine Alongside.bind (h.replayRecord r) fun known e₁ e₁' h₁ => ?_
    cases known with
    | true => exact ih h₁ _
    | false => exact ih h₁ _

theorem replayFrames (h : CatchesUp final e.maps e'.maps) (log : RedoLog) (bound : Nat)
    (stats : ReplayStats) (scan : LogScan) :
    Alongside final ((Engine.replayFrames log bound stats scan).runOn e)
      ((Engine.replayFrames log bound stats scan).runOn e') := by
  induction bound generalizing e e' stats scan with
  | zero => exact ⟨rfl, h⟩
  | succ bound ih =>
    -- The next frame is read from the log alone.
    refine Alongside.bind ⟨rfl, h⟩ fun found e₁ e₁' h₁ => ?_
    rcases found with ⟨_ | frame, scan'⟩
    · exact ⟨rfl, h₁⟩
    · refine Alongside.bind ⟨rfl, h₁⟩ fun records e₂ e₂' h₂ => ?_
      exact Alongside.bind (h₂.replayRecords records stats) fun stats' e₃ e₃' h₃ => ih h₃ _ _

theorem recover (h : CatchesUp final e.maps e'.maps) (hlog : e'.log = e.log) :
    Alongside final (Engine.recover.runOn e) (Engine.recover.runOn e') := by
  unfold Engine.recover
  rw [runOn_bind, runOn_bind, runOn_get, runOn_get]
  simp only [hlog]
  cases e.log with
  | none => exact ⟨rfl, h⟩
  | some log => exact h.replayFrames log _ _ _

end CatchesUp

end

/-! ## Maps in order -/

/-- The maps are listed in the order of their names, and the slots of each in that of their keys. -/
structure AllSorted (maps : Table String VersionMap) : Prop where
  names : maps.IsSorted
  slots : ∀ ⦃name m⦄, maps.get? name = some m → m.slots.IsSorted

namespace AllSorted

variable {maps maps' : Table String VersionMap}

theorem insert (h : AllSorted maps) (name : String) {m : VersionMap} (hm : m.slots.IsSorted) :
    AllSorted (maps.insert name m) where
  names := h.names.insert name m
  slots := by
    intro other m' hm'
    rw [Table.get?_insert] at hm'
    split at hm'
    · cases hm'
      exact hm
    · exact h.slots hm'

theorem recover {e : Engine} (h : AllSorted e.maps) : AllSorted (Engine.recover.runOn e).2.maps := by
  refine Engine.recover_keeps (P := fun e => AllSorted e.maps) (fun e r h => ?_) h
  rcases e.replayRecord_cases r with ⟨err, hrun⟩ | hrun | ⟨m, key, payload, hm, -, hrun⟩
  · -- Nothing is put where nothing can be read.
    rw [hrun]
    exact h
  · rw [hrun]
    exact h
  · rw [hrun]
    apply h.insert
    -- A slot is put or removed, and the slots stay in order.
    cases payload with
    | none => exact (h.slots hm).erase key
    | some q => exact (h.slots hm).insert key _

end AllSorted

/-! ## The main statement -/

/-- Two maps with the same name, the same codecs, the same count and the same version in each
slot. -/
structure VersionMap.SameContents (m m' : VersionMap) : Prop where
  name : m'.name = m.name
  keyCodec : m'.keyCodec = m.keyCodec
  valueCodec : m'.valueCodec = m.valueCodec
  rows : m'.rows = m.rows
  slots : ∀ key, m'.get? key = m.get? key

/-- Tables of maps with the same contents are equal if all is listed in order. -/
theorem AllSorted.ext {maps maps' : Table String VersionMap} (h : AllSorted maps)
    (h' : AllSorted maps')
    (hsame : ∀ name, Option.Rel VersionMap.SameContents (maps.get? name) (maps'.get? name)) :
    maps' = maps := by
  refine h'.names.ext h.names fun name => ?_
  have hname := hsame name
  have hslots := @h.slots name
  have hslots' := @h'.slots name
  generalize maps.get? name = found at hname hslots ⊢
  generalize maps'.get? name = found' at hname hslots' ⊢
  cases hname with
  | none => rfl
  | @some m m' hm =>
    -- Sorted tables with the same entries are the same table.
    obtain ⟨hname, hkey, hvalue, hrows, hget⟩ := hm
    have htable : m'.slots = m.slots := (hslots' rfl).ext (hslots rfl) hget
    cases m
    cases m'
    simp_all

/-- Replay any log into any maps, and then replay it again. The second replay ends with the same
statistics or in the same error as the first one, also where it stops halfway. It leaves all of the
engine as it is: the maps have the same slots and the same counts, and are equal as they stand if
they were listed in order at the start. -/
theorem Engine.recover_again (e : Engine) :
    let once := recover.runOn e
    let twice := recover.runOn once.2
    twice.1 = once.1 ∧
      (∃ maps, twice.2 = { once.2 with maps } ∧ ∀ name,
        Option.Rel VersionMap.SameContents (once.2.maps.get? name) (maps.get? name)) ∧
      (AllSorted e.maps → twice = once) := by
  intro once twice
  -- Both replays leave everything but the maps.
  obtain ⟨maps₁, honce, hwritten⟩ := e.recover_allWritten
  obtain ⟨maps₂, htwice, hwritten'⟩ := once.2.recover_allWritten
  have hmaps : once.2.maps = maps₁ := congrArg Engine.maps honce
  have hmaps' : twice.2.maps = maps₂ := congrArg Engine.maps htwice
  -- At the start of the second replay each slot holds what it held in the end.
  have hstart : CatchesUp (slotAt once.2.maps) e.maps once.2.maps :=
    ⟨hmaps ▸ hwritten.codecsOf_eq, fun _ => .inr rfl⟩
  obtain ⟨hanswer, -, hend⟩ := hstart.recover (by rw [honce])
  have hslots : ∀ p, slotAt maps₂ p = slotAt once.2.maps p := fun p =>
    hmaps' ▸ (hend p).elim id id
  have hsame : ∀ name,
      Option.Rel VersionMap.SameContents (once.2.maps.get? name) (maps₂.get? name) := by
    intro name
    have hname : ∀ key, ((maps₂.get? name).bind fun m => m.get? key) =
        (once.2.maps.get? name).bind fun m => m.get? key := fun key => hslots ⟨name, key⟩
    have hcounted := hwritten' name
    -- The counts follow from the rows, which are the same.
    generalize once.2.maps.get? name = found at hname hcounted ⊢
    generalize maps₂.get? name = found' at hname hcounted ⊢
    cases hcounted with
    | none => exact .none
    | some hc => exact .some ⟨hc.name, hc.keyCodec, hc.valueCodec, hc.rows_eq hname, hname⟩
  refine ⟨hanswer, ⟨maps₂, htwice, hsame⟩, fun hsorted => Prod.ext hanswer ?_⟩
  have heq : maps₂ = once.2.maps :=
    hsorted.recover.ext (hmaps' ▸ hsorted.recover.recover) hsame
  exact htwice.trans (heq ▸ rfl)

/-- The log deletes a row and puts another one in its place, and then has a record that the codecs of
the map cannot read. -/
theorem Engine.recover_again_of_unreadable_record :
    let header : LogHeader := ⟨7, ⟨1⟩⟩
    let payload (codecs : Codec × Codec) (rs : List RedoRecord) : List UInt8 :=
      ((RedoRecord.encodeAll (fun _ => codecs) rs).toOption).getD []
    let frames : List Frame :=
      [⟨⟨1⟩, ⟨1⟩, payload (.int64, .text) [⟨"m", .int 1, none⟩, ⟨"m", .int 1, some (.text "c")⟩]⟩,
        ⟨⟨2⟩, ⟨2⟩, payload (.int64, .int64) [⟨"m", .int 2, some (.int 4)⟩]⟩]
    let log := RedoLog.reopened (.basic 7 .never) header frames (.ofBytes (header.contents frames))
    let m := ((VersionMap.empty "m" .int64 .text).put (.int 1) (.settled (some (.text "a")))).2
    let e := { Engine.bare .basic .inMemory (some log) none with
      maps := Table.empty.insert "m" m }
    let once := recover.runOn e
    AllSorted e.maps ∧ once.1.toOption = none ∧
      slotAt once.2.maps ⟨"m", .int 1⟩ = some (.settled (some (.text "c"))) ∧
      recover.runOn once.2 = once := by
  intro header payload frames log m e once
  have hsorted : AllSorted e.maps := by
    refine AllSorted.insert ⟨Table.isSorted_empty, fun _ _ hm => by cases hm⟩ "m" ?_
    exact Table.isSorted_empty.insert (Value.int 1) _
  have hseq : IsSequence header.startLsn frames :=
    ((IsSequence.nil header.startLsn).concat (f := frames[0]) rfl (by decide +kernel)
      (by decide +kernel)).concat (f := frames[1]) rfl (by decide +kernel) (by decide +kernel)
  have honce : once = (replayAll ⟨0, 0, 0, none⟩ frames).runOn e :=
    runOn_recover_eq rfl rfl (RedoLog.holds_reopened hseq rfl)
  obtain ⟨-, -, hagain⟩ := Engine.recover_again e
  refine ⟨hsorted, ?_, ?_, hagain hsorted⟩
  · rw [honce]
    decide +kernel
  · rw [honce]
    decide +kernel

end TxnStore
