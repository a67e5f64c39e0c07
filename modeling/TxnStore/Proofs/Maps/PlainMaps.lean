import TxnStore.Proofs.Catalog.Order
import TxnStore.Proofs.Transactions.Rows
import TxnStore.Proofs.Values.Order

/-!
# Maps as plain maps

Whatever a map is asked for, it answers like a plain finite map in the order of its keys. Its count
of rows is kept apart from its slots: a tombstone put over a row leaves the count one too high, and a
call that lowers the count does so whatever the slots hold. So the count is the number of the rows,
and of those buried, less those dropped.
-/

namespace TxnStore

/-! ## Calls -/

inductive MapCall
  | get (key : Value)
  | put (key : Value) (v : Version)
  | remove (key : Value)
  | replace (key : Value) (decideOn : Option Version → Except StoreError (Option Version))
  | dropRow
  | entries
  | slotCount
  | size

/-- What a call gives back. -/
inductive MapAnswer
  /-- The version in the slot, or the one that was there before the call. -/
  | slot (v : Option Version)
  | slots (entries : List (Value × Version))
  | number (n : Nat)
  | refused (e : StoreError)
  | done

namespace MapCall

/-- The answers to calls made one after the other, and what they leave. -/
def serveAll {σ : Type} (serve : σ → MapCall → MapAnswer × σ) :
    σ → List MapCall → List MapAnswer × σ
  | s, [] => ([], s)
  | s, c :: rest =>
    let (answer, s) := serve s c
    let (answers, s) := serveAll serve s rest
    (answer :: answers, s)

end MapCall

/-- What a map answers to a call, and the map after it. -/
def VersionMap.serve (m : VersionMap) : MapCall → MapAnswer × VersionMap
  | .get key => (.slot (m.get? key), m)
  | .put key v =>
    let (previous, m) := m.put key v
    (.slot previous, m)
  | .remove key =>
    let (previous, m) := m.remove key
    (.slot previous, m)
  | .replace key decideOn =>
    match (replace key decideOn).runOn m with
    | (.ok previous, m) => (.slot previous, m)
    | (.error e, m) => (.refused e, m)
  | .dropRow => (.done, m.dropRow)
  | .entries => (.slots m.entries, m)
  | .slotCount => (.number m.slotCount, m)
  | .size => (.number m.size, m)

/-! ## Plain maps -/

/-- A plain map in the order of its keys, and how often a tombstone was put over a row and how often
the count was lowered. -/
structure PlainMap where
  slots : Std.TreeMap Value Version
  buried : Nat
  dropped : Nat

namespace PlainMap

/-- A plain map without slots. -/
def empty : PlainMap := ⟨∅, 0, 0⟩

/-- The number of slots with a version that is no tombstone. -/
def live (p : PlainMap) : Nat := p.slots.toList.countP fun e => !e.2.isTombstone

/-- What the count of rows has to be. -/
def balance (p : PlainMap) : Int := p.live + p.buried - p.dropped

/-- Binds a key, and notes whether this puts a tombstone over a row. -/
def store (p : PlainMap) (key : Value) (v : Version) : PlainMap :=
  { p with
    slots := p.slots.insert key v
    buried := p.buried + (v.isTombstone && VersionMap.isLive p.slots[key]?).toNat }

/-- What a plain map answers to a call, and the map after it. -/
def serve (p : PlainMap) : MapCall → MapAnswer × PlainMap
  | .get key => (.slot p.slots[key]?, p)
  | .put key v => (.slot p.slots[key]?, p.store key v)
  | .remove key => (.slot p.slots[key]?, { p with slots := p.slots.erase key })
  | .replace key decideOn =>
    match decideOn p.slots[key]? with
    | .error e => (.refused e, p)
    | .ok none => (.slot p.slots[key]?, p)
    | .ok (some v) => (.slot p.slots[key]?, p.store key v)
  | .dropRow => (.done, { p with dropped := p.dropped + 1 })
  | .entries => (.slots p.slots.toList, p)
  | .slotCount => (.number p.slots.size, p)
  | .size => (.number p.balance.toNat, p)

/-! ### Counting the rows -/

theorem getElem?_insert (t : Std.TreeMap Value Version) (key j : Value) (v : Version) :
    (t.insert key v)[j]? = if j = key then some v else t[j]? := by
  rw [Std.TreeMap.getElem?_insert]
  simp only [Std.LawfulEqCmp.compare_eq_iff_eq, @eq_comm _ key j]

theorem getElem?_erase (t : Std.TreeMap Value Version) (key j : Value) :
    (t.erase key)[j]? = if j = key then none else t[j]? := by
  rw [Std.TreeMap.getElem?_erase]
  simp only [Std.LawfulEqCmp.compare_eq_iff_eq, @eq_comm _ key j]

theorem hasLive (p : PlainMap) : VersionMap.HasLive (fun key => p.slots[key]?) p.live := by
  have hnodup : (p.slots.toList.map Prod.fst).Nodup :=
    List.pairwise_map.mpr (Std.TreeMap.ordered_keys_toList.imp Table.ne_of_compare_eq_lt)
  refine ⟨(p.slots.toList.filter fun e => !e.2.isTombstone).map Prod.fst,
    hnodup.sublist (List.filter_sublist.map Prod.fst), fun key => ?_, ?_⟩
  · -- A key is counted exactly if it is bound to a version that is not a tombstone.
    simp only [List.mem_map, List.mem_filter, VersionMap.isLive, Option.any_eq_true]
    constructor
    · rintro ⟨⟨j, v⟩, ⟨hmem, hv⟩, rfl⟩
      exact ⟨v, Std.TreeMap.mem_toList_iff_getElem?_eq_some.mp hmem, hv⟩
    · rintro ⟨v, hslot, hv⟩
      exact ⟨(key, v), ⟨Std.TreeMap.mem_toList_iff_getElem?_eq_some.mpr hslot, hv⟩, rfl⟩
  · rw [List.length_map, live, List.countP_eq_length_filter]

/-- Where one slot changes, the number of rows changes by what was there and what is there. -/
theorem live_update (p p' : PlainMap) (key : Value)
    (hother : ∀ j, j ≠ key → p'.slots[j]? = p.slots[j]?) :
    p'.live + (VersionMap.isLive p.slots[key]?).toNat =
      p.live + (VersionMap.isLive p'.slots[key]?).toNat := by
  obtain ⟨n, hn, hcount⟩ := p.hasLive.update hother
  rw [hn.unique p'.hasLive] at hcount
  exact hcount

theorem live_store (p : PlainMap) (key : Value) (v : Version) :
    (p.store key v).live + (VersionMap.isLive p.slots[key]?).toNat =
      p.live + (!v.isTombstone).toNat := by
  have hcount := live_update p (p.store key v) key fun j hj => by
    rw [store, getElem?_insert, if_neg hj]
  rwa [store, getElem?_insert, if_pos rfl] at hcount

theorem live_erase (p : PlainMap) (key : Value) :
    ({ p with slots := p.slots.erase key } : PlainMap).live +
      (VersionMap.isLive p.slots[key]?).toNat = p.live := by
  have hcount := live_update p { p with slots := p.slots.erase key } key fun j hj => by
    rw [getElem?_erase, if_neg hj]
  rwa [getElem?_erase, if_pos rfl] at hcount

end PlainMap

/-! ## Agreement -/

/-- A map holds the slots of a plain map in the same order, and counts its balance. -/
structure VersionMap.Agrees (m : VersionMap) (p : PlainMap) : Prop where
  sorted : m.slots.IsSorted
  get?_eq : ∀ key, m.get? key = p.slots[key]?
  rows_eq : m.rows = p.balance

namespace VersionMap.Agrees

variable {m : VersionMap} {p : PlainMap}

theorem empty (name : String) (keyCodec valueCodec : Codec) :
    (VersionMap.empty name keyCodec valueCodec).Agrees .empty where
  sorted := Table.isSorted_empty
  get?_eq _ := Std.TreeMap.getElem?_emptyc.symm
  rows_eq := rfl

/-- The slots come in the same order, since both lists are in the order of their keys. -/
theorem entries_eq (h : m.Agrees p) : m.entries = p.slots.toList := by
  let listed : Table Value Version := ⟨p.slots.toList⟩
  have hsorted : listed.IsSorted := List.pairwise_map.mpr Std.TreeMap.ordered_keys_toList
  -- Both lists are sorted by the same order, so that it is enough to compare what is found.
  have hget : ∀ key, m.slots.get? key = listed.get? key := by
    intro key
    apply Option.ext
    intro v
    rw [show m.slots.get? key = _ from h.get?_eq key,
      ← Std.TreeMap.mem_toList_iff_getElem?_eq_some]
    exact ⟨fun hmem => Table.find?_of_mem hsorted.nodup hmem, Table.mem_of_find?⟩
  exact congrArg Table.toList (h.sorted.ext hsorted hget)

theorem slotCount_eq (h : m.Agrees p) : m.slotCount = p.slots.size := by
  rw [← Std.TreeMap.length_toList, ← h.entries_eq]
  rfl

theorem put (h : m.Agrees p) (key : Value) (v : Version) :
    (m.put key v).2.Agrees (p.store key v) where
  sorted := h.sorted.insert key v
  get?_eq j := by rw [get?_put, PlainMap.store, PlainMap.getElem?_insert, h.get?_eq]
  rows_eq := by
    have hlive := p.live_store key v
    have hrows := h.rows_eq
    simp only [PlainMap.balance, PlainMap.store, VersionMap.put, h.get?_eq] at hlive hrows ⊢
    -- A row more, a row buried, or the same rows, by what the slot holds and what is put there.
    cases hold : isLive p.slots[key]? <;> cases hnew : v.isTombstone <;>
      simp [hold, hnew] at hlive hrows ⊢ <;> omega

theorem remove (h : m.Agrees p) (key : Value) :
    (m.remove key).2.Agrees { p with slots := p.slots.erase key } where
  sorted := h.sorted.erase key
  get?_eq j := by rw [get?_remove, PlainMap.getElem?_erase, h.get?_eq]
  rows_eq := by
    have hlive := p.live_erase key
    have hrows := h.rows_eq
    simp only [PlainMap.balance, VersionMap.remove, h.get?_eq] at hrows ⊢
    cases hold : isLive p.slots[key]? <;> simp [hold] at hlive hrows ⊢ <;> omega

theorem dropRow (h : m.Agrees p) : m.dropRow.Agrees { p with dropped := p.dropped + 1 } where
  sorted := h.sorted
  get?_eq := h.get?_eq
  rows_eq := by
    have hrows := h.rows_eq
    have hlive : ({ p with dropped := p.dropped + 1 } : PlainMap).live = p.live := rfl
    simp only [PlainMap.balance, hlive, VersionMap.dropRow] at hrows ⊢
    omega

/-- A call is answered alike and leaves both alike. -/
theorem serve (h : m.Agrees p) (c : MapCall) :
    (m.serve c).1 = (p.serve c).1 ∧ (m.serve c).2.Agrees (p.serve c).2 := by
  cases c with
  | get key => exact ⟨congrArg MapAnswer.slot (h.get?_eq key), h⟩
  | put key v => exact ⟨congrArg MapAnswer.slot (h.get?_eq key), h.put key v⟩
  | remove key => exact ⟨congrArg MapAnswer.slot (h.get?_eq key), h.remove key⟩
  | replace key decideOn =>
    simp only [VersionMap.serve, runOn_replace, PlainMap.serve, h.get?_eq]
    -- The decision may fail, decline or give a version, and both sides follow it.
    rcases decideOn p.slots[key]? with err | (_ | v)
    · exact ⟨rfl, h⟩
    · exact ⟨rfl, h⟩
    · exact ⟨rfl, h.put key v⟩
  | dropRow => exact ⟨rfl, h.dropRow⟩
  | entries => exact ⟨congrArg MapAnswer.slots h.entries_eq, h⟩
  | slotCount => exact ⟨congrArg MapAnswer.number h.slotCount_eq, h⟩
  | size => exact ⟨congrArg (fun n => MapAnswer.number (Int.toNat n)) h.rows_eq, h⟩

theorem serveAll (h : m.Agrees p) (calls : List MapCall) :
    (MapCall.serveAll VersionMap.serve m calls).1 = (MapCall.serveAll PlainMap.serve p calls).1 ∧
      (MapCall.serveAll VersionMap.serve m calls).2.Agrees
        (MapCall.serveAll PlainMap.serve p calls).2 := by
  induction calls generalizing m p with
  | nil => exact ⟨rfl, h⟩
  | cons c rest ih =>
    obtain ⟨hanswer, hnext⟩ := h.serve c
    obtain ⟨hanswers, hlast⟩ := ih hnext
    exact ⟨congrArg₂ List.cons hanswer hanswers, hlast⟩

end VersionMap.Agrees

/-- A replacement that fails or is declined leaves the map as it is. -/
theorem VersionMap.replace_of_not_stored (m : VersionMap) {key : Value}
    {decideOn : Option Version → Except StoreError (Option Version)}
    (h : ∀ v, decideOn (m.get? key) ≠ .ok (some v)) : ((replace key decideOn).runOn m).2 = m := by
  rw [runOn_replace]
  rcases hdecided : decideOn (m.get? key) with err | (_ | v)
  · rfl
  · rfl
  · exact absurd hdecided (h v)

/-- A new map answers calls like a plain map in the order of its keys, and after them its count is
the number of slots that hold no committed tombstone, and of the rows that a committed tombstone was
put over, less the number of calls that lowered the count. If a replacement fails or is declined, all
stays as it is. -/
theorem VersionMap.serves_as_plain_map (name : String) (keyCodec valueCodec : Codec)
    (calls : List MapCall) :
    let (answers, m) := MapCall.serveAll serve (.empty name keyCodec valueCodec) calls
    let (answers', p) := MapCall.serveAll PlainMap.serve .empty calls
    answers = answers' ∧ m.entries = p.slots.toList ∧ (∀ key, m.get? key = p.slots[key]?) ∧
      m.rows = p.live + p.buried - p.dropped ∧
      ∀ key decideOn, (∀ v, decideOn (m.get? key) ≠ .ok (some v)) →
        ((replace key decideOn).runOn m).2 = m := by
  obtain ⟨hanswers, hagrees⟩ :=
    (VersionMap.Agrees.empty name keyCodec valueCodec).serveAll calls
  exact ⟨hanswers, hagrees.entries_eq, hagrees.get?_eq, hagrees.rows_eq, fun _ _ hnot =>
    replace_of_not_stored _ hnot⟩

/-- An open delete is a row until it is committed; then its slot is left alone by a replacement that
finds the key occupied. -/
theorem VersionMap.serves_as_plain_map_of_declined_replacement :
    let key : Value := .int 7
    let calls : List MapCall :=
      [.put key (.written ⟨1⟩ none none), .dropRow, .put key (.settled none)]
    let ifAbsent (slot : Option Version) : Except StoreError (Option Version) :=
      .ok (if slot.isNone then some (.settled (some .null)) else none)
    let m := (MapCall.serveAll serve (.empty "accounts" .int64 .text) calls).2
    (∀ v, ifAbsent (m.get? key) ≠ .ok (some v)) ∧ m.rows = 0 ∧
      ((replace key ifAbsent).runOn m).2 = m := by
  intro key calls ifAbsent m
  have hdeclines : ∀ v, ifAbsent (m.get? key) ≠ .ok (some v) := fun v h => by
    cases (show Except.ok none = Except.ok (some v) from h)
  exact ⟨hdeclines, rfl,
    (serves_as_plain_map "accounts" .int64 .text calls).2.2.2.2 key ifAbsent hdeclines⟩

end TxnStore
