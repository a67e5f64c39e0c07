import TxnStore.Proofs.Transactions.DroppedMaps
import TxnStore.Proofs.Transactions.Isolation

/-!
# Maps that come and go

Maps are created and dropped while transactions are under way, and an engine goes on agreeing with a
machine of overlays. A map that is dropped takes its slots along, and one that is created starts
without any; so nobody must still have a write to a map of the name that it gets.
-/

namespace TxnStore

open TxnStore.Action

def EngineRequest.event : EngineRequest → EngineEvent
  | call c => .call c
  | createMap name keyCodec valueCodec => .createMap name keyCodec valueCodec
  | dropMap name => .dropMap name

/-! ## One map more, or one less -/

theorem slotAt_insert_ne {maps : Table String VersionMap} {name : String} {p : Place}
    (h : p.map ≠ name) (m : VersionMap) : slotAt (maps.insert name m) p = slotAt maps p := by
  unfold slotAt
  rw [Table.get?_insert_ne maps h]

theorem slotAt_erase_ne {maps : Table String VersionMap} {name : String} {p : Place}
    (h : p.map ≠ name) : slotAt (maps.erase name) p = slotAt maps p := by
  unfold slotAt
  rw [Table.get?_erase_ne maps h]

namespace OverlayMachine

/-- The machine to which nothing was ever committed in the maps of a name. -/
def forget (r : OverlayMachine) (name : String) : OverlayMachine :=
  { r with committed := fun p => if p.map = name then none else r.committed p }

end OverlayMachine

namespace Agrees

variable {e e' : Engine} {r : OverlayMachine}

/-- A map without slots is opened where nothing is committed or held. -/
theorem openMap (h : Agrees e r) {name : String}
    (hcommitted : ∀ {p : Place}, p.map = name → r.committed p = none)
    (hholds : ∀ {t p}, p.map = name → r.holds t p = false)
    {m : VersionMap} (hm : ∀ key, m.get? key = none)
    (hmaps : e'.maps = e.maps.insert name m) (hlive : e'.live = e.live)
    (hnext : e'.nextTxn = e.nextTxn) : Agrees e' (r.openMap name) where
  slots := by
    refine ⟨fun other => ?_, fun {t o p q} hopen ho hq => ?_, fun {p} hopen hfree => ?_⟩
    · -- One more map is open.
      rw [hmaps, Table.contains_insert, ← h.slots.isOpen]
      rfl
    · -- Nobody holds a place in the new map.
      have hne : p.map ≠ name := by
        intro hp
        have hheld : r.holds t p = true := OverlayMachine.holds_of_entry? ho hq
        exact absurd hheld (by simp [hholds hp])
      have hopen₀ : r.isOpen p.map = true := by
        simpa [OverlayMachine.openMap, hne] using hopen
      rw [hmaps, slotAt_insert_ne hne]
      exact h.slots.held hopen₀ ho hq
    · by_cases hp : p.map = name
      · -- Nothing is committed to the new map yet.
        right
        refine ⟨?_, hcommitted hp⟩
        rw [hmaps, slotAt, hp, Table.get?_insert_self, Option.bind_some, hm]
      · have hopen₀ : r.isOpen p.map = true := by
          simpa [OverlayMachine.openMap, hp] using hopen
        rw [hmaps, slotAt_insert_ne hp]
        exact h.slots.free hopen₀ hfree
  exclusive := h.exclusive
  nextTxn := h.nextTxn.trans hnext.symm
  logs := hlive ▸ h.logs
  begun := h.begun

theorem closeMap (h : Agrees e r) {name : String} (hmaps : e'.maps = e.maps.erase name)
    (hlive : e'.live = e.live) (hnext : e'.nextTxn = e.nextTxn) :
    Agrees e' (r.closeMap name) where
  slots := by
    -- What is open afterwards is another map that was open before.
    have hkept : ∀ {p : Place}, (r.closeMap name).isOpen p.map = true →
        p.map ≠ name ∧ r.isOpen p.map = true := by
      intro p hopen
      simpa [OverlayMachine.closeMap] using hopen
    refine ⟨fun other => ?_, fun {t o p q} hopen ho hq => ?_, fun {p} hopen hfree => ?_⟩
    · rw [hmaps, Table.contains_erase, ← h.slots.isOpen]
      rfl
    · obtain ⟨hne, hopen₀⟩ := hkept hopen
      rw [hmaps, slotAt_erase_ne hne]
      exact h.slots.held hopen₀ ho hq
    · obtain ⟨hne, hopen₀⟩ := hkept hopen
      rw [hmaps, slotAt_erase_ne hne]
      exact h.slots.free hopen₀ hfree
  exclusive := h.exclusive
  nextTxn := h.nextTxn.trans hnext.symm
  logs := hlive ▸ h.logs
  begun := h.begun

/-- What was committed to a map that is gone does not matter, if nobody has a write to it. -/
theorem forget (h : Agrees e r) {name : String} (hclosed : r.isOpen name = false)
    (hholds : ∀ {t p}, p.map = name → r.holds t p = false) : Agrees e (r.forget name) where
  slots := by
    -- What is forgotten was in the map that is closed; nothing else is looked at.
    have hkept : ∀ {p : Place}, r.isOpen p.map = true →
        (r.forget name).committed p = r.committed p := by
      intro p hopen
      refine if_neg fun hp => ?_
      rw [hp, hclosed] at hopen
      cases hopen
    refine ⟨h.slots.isOpen, fun {t o p q} hopen ho hq => ?_, fun {p} hopen hfree => ?_⟩
    · rw [hkept hopen]
      exact h.slots.held hopen ho hq
    · rw [hkept hopen]
      exact h.slots.free hopen hfree
  exclusive := h.exclusive
  nextTxn := h.nextTxn
  logs t := by
    rw [h.logs t]
    show (r.overlay? t).map _ = (r.overlay? t).map _
    cases ho : r.overlay? t with
    | none => rfl
    | some o =>
      -- A record has what is committed at its own place only, and this place is in another map.
      have hrecords : Overlay.records t r.committed o =
          Overlay.records t (r.forget name).committed o := by
        refine Overlay.records_congr fun p hp => Eq.symm (if_neg fun hname => ?_)
        have hheld : r.holds t p = true := OverlayMachine.holds_iff.mpr ⟨o, ho, hp⟩
        rw [hholds hname] at hheld
        cases hheld
      rw [Option.map_some, Option.map_some, hrecords]
  begun := h.begun

/-- Nobody holds a place in a map that is created under a name which no log has. -/
theorem holds_of_reusesNoName (h : Agrees e r) {name : String} {keyCodec valueCodec : Codec}
    (hclosed : e.maps.contains name = false)
    (hq : e.reusesNoName (.createMap name keyCodec valueCodec) = true) {t : TxnId} {p : Place}
    (hp : p.map = name) : r.holds t p = false := by
  cases hheld : r.holds t p with
  | false => rfl
  | true =>
    obtain ⟨txn, hl, w, hw, hmap, -⟩ := h.hasWritten_iff.mpr hheld
    exact absurd (hmap.trans hp) (Engine.ne_of_reusesNoName hq hclosed hl hw)

/-! ## Requests -/

/-- Creating a map is refused, or the map is there, without anything that was committed under its
name. -/
theorem createMap (h : Agrees e r) {name : String} {keyCodec valueCodec : Codec}
    (hq : e.reusesNoName (.createMap name keyCodec valueCodec) = true) :
    let x := (Engine.createMap name keyCodec valueCodec).runOn e
    ((∃ err, x.1 = .error err) ∧ Agrees x.2 r) ∨
      (x.1 = .ok () ∧ Agrees x.2 ((r.forget name).openMap name)) := by
  intro x
  obtain ⟨hlive, hnext, -, hcases⟩ := e.createMap_cases name keyCodec valueCodec
  rcases hcases with ⟨hrefused, hmaps⟩ | ⟨hdone, hclosed, hmaps⟩
  · exact .inl ⟨hrefused, h.of_sameWork ⟨hmaps, hlive, hnext⟩⟩
  · have hclosed₀ : r.isOpen name = false := (h.slots.isOpen name).trans hclosed
    have hholds : ∀ {t p}, p.map = name → r.holds t p = false := fun hp =>
      h.holds_of_reusesNoName hclosed hq hp
    have hforgotten := h.forget hclosed₀ hholds
    exact .inr ⟨hdone,
      hforgotten.openMap (fun hp => if_pos hp) hholds (fun _ => rfl) hmaps hlive hnext⟩

/-- A request is taken alike by an engine and by some machine, and it leaves the numbers that it
does not use. -/
theorem after (h : Agrees e r) {q : EngineRequest} (hq : e.reusesNoName q = true) {k : Nat}
    (hnew : r.HasNumbers (k + if q.event.isBegin then 1 else 0)) :
    ∃ r', Agrees (e.after q) r' ∧ r'.HasNumbers k := by
  cases q with
  | call c =>
    exact ⟨_, (h.step c (h.fresh hnew)).2, hnew.step (e.verdict c)⟩
  | createMap name keyCodec valueCodec =>
    rcases h.createMap hq with ⟨-, hsame⟩ | ⟨-, hopened⟩
    · exact ⟨r, hsame, hnew⟩
    · exact ⟨_, hopened, hnew⟩
  | dropMap name =>
    obtain ⟨hlive, hnext, -, hmaps⟩ := e.dropMap_cases name
    exact ⟨_, h.closeMap hmaps hlive hnext, hnew⟩

end Agrees

end TxnStore
