import TxnStore.Proofs.Recovery.Histories
import TxnStore.Proofs.Transactions.Effects

/-!
# What transactions leave alone

An engine stands on its log, its catalog, its settings and the codecs of its maps. Transactions
change none of these until they commit, and a commit changes the log only.
-/

namespace TxnStore

open TxnStore.Action

/-- The codecs of the map of a name, if it is open. -/
def codecsOf (maps : Table String VersionMap) (name : String) : Option (Codec × Codec) :=
  (maps.get? name).map fun m => (m.keyCodec, m.valueCodec)

theorem codecsOf_insert {maps : Table String VersionMap} {name : String} {m m' : VersionMap}
    (hm : maps.get? name = some m) (hkey : m'.keyCodec = m.keyCodec)
    (hvalue : m'.valueCodec = m.valueCodec) (other : String) :
    codecsOf (maps.insert name m') other = codecsOf maps other := by
  unfold codecsOf
  rw [Table.get?_insert]
  by_cases h : other = name
  · rw [if_pos h, h, hm, Option.map_some, Option.map_some, hkey, hvalue]
  · rw [if_neg h]

theorem isSome_codecsOf (maps : Table String VersionMap) (name : String) :
    (codecsOf maps name).isSome = maps.contains name := by
  rw [codecsOf, Option.isSome_map]
  rfl

/-- Two engines that stand on the same log and catalog, with the same maps open. -/
structure SameFooting (e e' : Engine) : Prop where
  log : e'.log = e.log
  catalog : e'.catalog = e.catalog
  settings : e'.settings = e.settings
  codecs : ∀ name, codecsOf e'.maps name = codecsOf e.maps name

namespace SameFooting

theorem refl (e : Engine) : SameFooting e e := ⟨rfl, rfl, rfl, fun _ => rfl⟩

theorem trans {e₁ e₂ e₃ : Engine} (h₁₂ : SameFooting e₁ e₂) (h₂₃ : SameFooting e₂ e₃) :
    SameFooting e₁ e₃ :=
  ⟨h₂₃.log.trans h₁₂.log, h₂₃.catalog.trans h₁₂.catalog, h₂₃.settings.trans h₁₂.settings,
    fun name => (h₂₃.codecs name).trans (h₁₂.codecs name)⟩

/-- A map whose slots were changed has the codecs that it had. -/
theorem setMap {e : Engine} {name : String} {m m' : VersionMap} (hm : e.maps.get? name = some m)
    (hkey : m'.keyCodec = m.keyCodec) (hvalue : m'.valueCodec = m.valueCodec) :
    SameFooting e { e with maps := e.maps.insert name m' } :=
  ⟨rfl, rfl, rfl, codecsOf_insert hm hkey hvalue⟩

theorem finish (e : Engine) (t : TxnId) : SameFooting e (e.finish t) := by
  unfold Engine.finish
  split <;> exact ⟨rfl, rfl, rfl, fun _ => rfl⟩

end SameFooting

/-! ## Undoing and finishing writes -/

namespace UndoRecord

theorem revertIn_codecs (r : UndoRecord) (m : VersionMap) :
    (r.revertIn m).keyCodec = m.keyCodec ∧ (r.revertIn m).valueCodec = m.valueCodec := by
  unfold revertIn
  split <;> exact ⟨rfl, rfl⟩

theorem rollback_sameFooting (r : UndoRecord) (e : Engine) : SameFooting e (r.rollback e).2 := by
  unfold rollback
  split
  · exact SameFooting.refl e
  · cases hm : e.maps.get? r.map with
    | none => exact ⟨rfl, rfl, rfl, fun _ => rfl⟩
    | some m =>
      obtain ⟨hkey, hvalue⟩ := revertIn_codecs r m
      exact SameFooting.setMap hm hkey hvalue

theorem commitTo_codecs (m : VersionMap) (key : Value) (v : Version) (keepTombstone : Bool) :
    (commitTo m key v keepTombstone).keyCodec = m.keyCodec ∧
      (commitTo m key v keepTombstone).valueCodec = m.valueCodec := by
  unfold commitTo
  split
  · exact ⟨rfl, rfl⟩
  · split <;> exact ⟨rfl, rfl⟩

theorem commit_sameFooting (r : UndoRecord) (e : Engine) : SameFooting e (r.commit e).2 := by
  unfold commit
  split
  · exact SameFooting.refl e
  · cases hm : e.maps.get? r.map with
    | none => exact ⟨rfl, rfl, rfl, fun _ => rfl⟩
    | some m =>
      obtain ⟨hkey, hvalue⟩ := commitTo_codecs m r.key r.written.commit e.hasRepeatableReaders
      exact SameFooting.setMap hm hkey hvalue

end UndoRecord

namespace UndoLog

theorem revertAll_sameFooting (rs : List UndoRecord) (e : Engine) :
    SameFooting e (revertAll rs e).2 := by
  induction rs generalizing e with
  | nil => exact SameFooting.refl e
  | cons r rest ih => exact (r.rollback_sameFooting e).trans (ih _)

theorem commit_sameFooting (log : UndoLog) (e : Engine) : SameFooting e (commit log e).2 := by
  induction log generalizing e with
  | nil => exact SameFooting.refl e
  | cons r rest ih => exact (r.commit_sameFooting e).trans (ih _)

end UndoLog

namespace Engine

theorem aborted_sameFooting (e : Engine) (t : TxnId) (log : UndoLog) :
    SameFooting e (e.aborted t log) := by
  have hundone := UndoLog.revertAll_sameFooting (log.drop 0).reverse e
  have hover := hundone.trans (SameFooting.finish _ t)
  exact ⟨hover.log, hover.catalog, hover.settings, hover.codecs⟩

theorem committed_sameFooting (e : Engine) (t : TxnId) (log : UndoLog) :
    SameFooting e (e.committed t log) := by
  have hfinal := UndoLog.commit_sameFooting log e
  have hover := hfinal.trans (SameFooting.finish _ t)
  exact ⟨hover.log, hover.catalog, hover.settings, hover.codecs⟩

end Engine

/-! ## The calls of transactions -/

namespace Effect

variable {e e' : Engine} {c : TxnCall} {a : Except StoreError TxnAnswer}

/-- Only a commit changes anything that the engine stands on. -/
theorem sameFooting (h : Effect e c a e') (hc : c.isCommit = false) : SameFooting e e' := by
  cases h with
  | refused | found | saved | unseen | closed => exact SameFooting.refl e
  | begun => exact ⟨rfl, rfl, rfl, fun _ => rfl⟩
  | @written t txn p payload m v _ hm _ =>
    -- A write changes a slot of a map, and nothing around it.
    have hset : SameFooting e { e with maps := e.maps.insert p.map (m.put p.key v).2 } :=
      SameFooting.setMap hm rfl rfl
    exact ⟨hset.log, hset.catalog, hset.settings, hset.codecs⟩
  | @wentBack t txn n _ _ =>
    have hundone := UndoLog.revertAll_sameFooting (txn.log.drop n).reverse e
    exact ⟨hundone.log, hundone.catalog, hundone.settings, hundone.codecs⟩
  | @ended t txn _ _ _ => exact Engine.aborted_sameFooting e t txn.log
  | undone | committed => cases hc

/-- No call opens or closes a map. -/
theorem codecs (h : Effect e c a e') (name : String) :
    codecsOf e'.maps name = codecsOf e.maps name := by
  cases hc : c.isCommit with
  -- Other calls than commits leave the footing.
  | false => exact (h.sameFooting hc).codecs name
  | true =>
    cases h with
    | refused => rfl
    | @undone t txn err e₁ _ hlog =>
      -- Logging leaves the maps, and undoing keeps their codecs.
      rw [(Engine.aborted_sameFooting e₁ t txn.log).codecs, Engine.maps_of_logWrites hlog]
    | @committed t txn e₁ _ hlog =>
      rw [(Engine.committed_sameFooting e₁ t txn.log).codecs, Engine.maps_of_logWrites hlog]
    | @written t txn p payload _ _ _ _ _ => cases payload <;> cases hc
    | @ended t txn _ _ hc' => rcases hc' with rfl | rfl <;> cases hc
    | _ => cases hc

/-- No call writes to the catalog. -/
theorem catalog (h : Effect e c a e') : e'.catalog = e.catalog := by
  cases hc : c.isCommit with
  | false => exact (h.sameFooting hc).catalog
  -- Only maps and the log are written to by calls.
  | true =>
    cases h with
    | refused => rfl
    | @undone t txn err e₁ _ hlog =>
      rw [(Engine.aborted_sameFooting e₁ t txn.log).catalog, Engine.catalog_of_logWrites hlog]
    | @committed t txn e₁ _ hlog =>
      rw [(Engine.committed_sameFooting e₁ t txn.log).catalog, Engine.catalog_of_logWrites hlog]
    | @written t txn p payload _ _ _ _ _ => cases payload <;> cases hc
    | @ended t txn _ _ hc' => rcases hc' with rfl | rfl <;> cases hc
    | _ => cases hc

end Effect

/-- Only a commit changes anything that the engine stands on. -/
theorem TxnCall.sameFooting {c : TxnCall} (hc : c.isCommit = false) (e : Engine) :
    SameFooting e (c.action.runOn e).2 := (c.effect e).sameFooting hc

end TxnStore
