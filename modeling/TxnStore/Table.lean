/-!
# Ordered tables

A table binds keys to values and lists its bindings in the order of the keys. Its meaning is the
function `get?`: writing a binding changes the answer at its own key and at no other.
-/

namespace TxnStore

/-- A table of bindings in ascending order of their keys. -/
structure Table (κ : Type) (α : Type) where
  toList : List (κ × α)
deriving Repr

namespace Table

variable {κ α β : Type}

/-- The table without bindings. -/
def empty : Table κ α := ⟨[]⟩

instance : Inhabited (Table κ α) := ⟨empty⟩

section
variable [DecidableEq κ]

/-- The value bound to a key in a list of bindings. -/
def find? (k : κ) : List (κ × α) → Option α
  | [] => none
  | (j, a) :: rest => if j = k then some a else find? k rest

/-- The value bound to a key. -/
def get? (t : Table κ α) (k : κ) : Option α := find? k t.toList

/-- Whether a key is bound. -/
def contains (t : Table κ α) (k : κ) : Bool := (t.get? k).isSome

/-- The table without the bindings of a key. -/
def erase (t : Table κ α) (k : κ) : Table κ α := ⟨t.toList.filter fun e => e.1 ≠ k⟩

variable [Ord κ]

/-- Binds a key in a list of bindings, in its place by the order of the keys. -/
def place (k : κ) (a : α) : List (κ × α) → List (κ × α)
  | [] => [(k, a)]
  | (j, b) :: rest =>
    if j = k then (k, a) :: rest
    else if compare k j = .lt then (k, a) :: (j, b) :: rest
    else (j, b) :: place k a rest

/-- Binds a key, in place of what it was bound to. -/
def insert (t : Table κ α) (k : κ) (a : α) : Table κ α := ⟨place k a t.toList⟩

/-- Changes the value bound to a key; an unbound key stays unbound. -/
def modify (t : Table κ α) (k : κ) (f : α → α) : Table κ α :=
  ⟨t.toList.map fun e => if e.1 = k then (e.1, f e.2) else e⟩

/-- Binds the keys of a list one after the other; a later binding replaces an earlier one. -/
def ofList (entries : List (κ × α)) : Table κ α :=
  entries.foldl (fun t e => t.insert e.1 e.2) empty

end

/-- The number of bindings. -/
def size (t : Table κ α) : Nat := t.toList.length

/-- The keys in ascending order. -/
def keys (t : Table κ α) : List κ := t.toList.map Prod.fst

/-- The values in the order of their keys. -/
def values (t : Table κ α) : List α := t.toList.map Prod.snd

/-! ## Laws -/

section
variable [DecidableEq κ]

@[simp] theorem get?_empty (k : κ) : (empty : Table κ α).get? k = none := rfl

theorem find?_filter_self (k : κ) (l : List (κ × α)) :
    find? k (l.filter fun e => e.1 ≠ k) = none := by
  induction l with
  | nil => rfl
  | cons e rest ih =>
    by_cases h : e.1 = k
    · simpa [h] using ih
    · simpa [h, find?] using ih

theorem find?_filter_ne {k j : κ} (h : j ≠ k) (l : List (κ × α)) :
    find? j (l.filter fun e => e.1 ≠ k) = find? j l := by
  induction l with
  | nil => rfl
  | cons e rest ih =>
    by_cases hk : e.1 = k
    · have hj : e.1 ≠ j := fun hj => h (hj ▸ hk)
      have step : find? j (e :: rest) = find? j rest := if_neg hj
      rw [List.filter_cons_of_neg (by simpa using hk), ih, step]
    · rw [List.filter_cons_of_pos (by simpa using hk), find?, find?, ih]

@[simp] theorem get?_erase_self (t : Table κ α) (k : κ) : (t.erase k).get? k = none :=
  find?_filter_self k t.toList

theorem get?_erase_ne (t : Table κ α) {k j : κ} (h : j ≠ k) :
    (t.erase k).get? j = t.get? j :=
  find?_filter_ne h t.toList

theorem mem_of_find? {k : κ} {a : α} {l : List (κ × α)} (h : find? k l = some a) :
    (k, a) ∈ l := by
  induction l with
  | nil => simp [find?] at h
  | cons e rest ih =>
    obtain ⟨j, b⟩ := e
    by_cases hj : j = k
    · have hb : b = a := by simpa [find?, hj] using h
      simp [hj, hb]
    · exact List.mem_cons_of_mem _ (ih (by simpa [find?, hj] using h))

theorem mem_keys_of_contains {t : Table κ α} {k : κ} (h : t.contains k = true) : k ∈ t.keys := by
  obtain ⟨a, ha⟩ := Option.isSome_iff_exists.mp h
  exact List.mem_map.mpr ⟨(k, a), mem_of_find? ha, rfl⟩

theorem find?_of_mem {b : κ × α} {l : List (κ × α)} (hnodup : (l.map Prod.fst).Nodup)
    (hb : b ∈ l) : find? b.1 l = some b.2 := by
  induction l with
  | nil => simp at hb
  | cons e rest ih =>
    rw [List.map_cons, List.nodup_cons] at hnodup
    rcases List.mem_cons.mp hb with rfl | hrest
    · simp [find?]
    · have hne : e.1 ≠ b.1 := fun hsame => hnodup.1 (hsame ▸ List.mem_map_of_mem hrest)
      rw [find?, if_neg hne]
      exact ih hnodup.2 hrest

theorem nodup_keys_erase {t : Table κ α} (h : t.keys.Nodup) (k : κ) : (t.erase k).keys.Nodup :=
  h.sublist (List.filter_sublist.map Prod.fst)

theorem find?_eq_none_iff {k : κ} {l : List (κ × α)} :
    find? k l = none ↔ k ∉ l.map Prod.fst := by
  induction l with
  | nil => simp [find?]
  | cons e rest ih =>
    obtain ⟨j, b⟩ := e
    by_cases hj : j = k
    · simp [find?, hj]
    · simp [find?, hj, ih, Ne.symm hj]

theorem get?_erase (t : Table κ α) (k j : κ) :
    (t.erase k).get? j = if j = k then none else t.get? j := by
  by_cases h : j = k
  · rw [if_pos h, h, get?_erase_self]
  · rw [if_neg h, get?_erase_ne t h]

theorem contains_erase (t : Table κ α) (k j : κ) :
    (t.erase k).contains j = (decide (j ≠ k) && t.contains j) := by
  by_cases h : j = k <;> simp [contains, get?_erase, h]

theorem erase_of_not_contains {t : Table κ α} {k : κ} (h : t.contains k = false) :
    t.erase k = t := by
  have hnone : find? k t.toList = none := by simpa [contains, get?] using h
  have hkeys : ∀ b ∈ t.toList, b.1 ≠ k := fun b hb hk =>
    find?_eq_none_iff.mp hnone (hk ▸ List.mem_map_of_mem hb)
  rw [erase, List.filter_eq_self.mpr fun b hb => decide_eq_true (hkeys b hb)]

theorem find?_map (f : α → α) (k j : κ) (l : List (κ × α)) :
    find? j (l.map fun e => if e.1 = k then (e.1, f e.2) else e) =
      if j = k then (find? j l).map f else find? j l := by
  induction l with
  | nil => simp [find?]
  | cons e rest ih =>
    obtain ⟨i, a⟩ := e
    by_cases hik : i = k <;> by_cases hij : i = j <;> grind [find?]

theorem get?_modify (t : Table κ α) (k j : κ) (f : α → α) :
    (t.modify k f).get? j = if j = k then (t.get? j).map f else t.get? j :=
  find?_map f k j t.toList

theorem keys_modify (t : Table κ α) (k : κ) (f : α → α) : (t.modify k f).keys = t.keys := by
  rw [keys, modify, List.map_map]
  apply List.map_congr_left
  intro b _
  by_cases h : b.1 = k <;> simp [h]

/-- Without a bound key, there is one binding less. -/
theorem size_erase {t : Table κ α} (hnodup : t.keys.Nodup) {k : κ} (h : t.contains k = true) :
    (t.erase k).size + 1 = t.size := by
  have hmem := mem_keys_of_contains h
  have hlength : t.keys.length = t.size := List.length_map Prod.fst
  have hkept : (t.erase k).keys = t.keys.erase k := by
    rw [hnodup.erase_eq_filter, keys, keys, erase, List.filter_map]
    congr 1
    apply List.filter_congr
    intro b _
    by_cases hb : b.1 = k <;> simp [hb]
  have hlength' : (t.erase k).keys.length = (t.erase k).size := List.length_map Prod.fst
  rw [← hlength', hkept, List.length_erase_of_mem hmem, ← hlength]
  have hpos := List.length_pos_of_mem hmem
  omega

theorem modify_modify (t : Table κ α) (k : κ) (f g : α → α) :
    (t.modify k f).modify k g = t.modify k (g ∘ f) := by
  rw [modify, modify, modify, List.map_map]
  congr 1
  apply List.map_congr_left
  intro b _
  by_cases h : b.1 = k <;> simp [h]

theorem modify_erase (t : Table κ α) (k : κ) (f : α → α) : (t.erase k).modify k f = t.erase k := by
  have hsame : (t.toList.filter fun b => b.1 ≠ k).map
      (fun b => if b.1 = k then (b.1, f b.2) else b) =
        (t.toList.filter fun b => b.1 ≠ k).map id :=
    List.map_congr_left fun b hb => if_neg (by simpa using (List.mem_filter.mp hb).2)
  rw [modify, erase, hsame, List.map_id]

/-- It does not matter what was bound to a key that is erased. -/
theorem erase_modify (t : Table κ α) (k : κ) (f : α → α) : (t.modify k f).erase k = t.erase k := by
  have hkept : ((fun b : κ × α => decide (b.1 ≠ k)) ∘
      fun b => if b.1 = k then (b.1, f b.2) else b) = fun b => decide (b.1 ≠ k) := by
    funext b
    by_cases h : b.1 = k <;> simp [h]
  rw [← modify_erase t k f, erase, modify, List.filter_map, hkept]
  rfl

variable [Ord κ]

theorem find?_place_self (k : κ) (a : α) (l : List (κ × α)) :
    find? k (place k a l) = some a := by
  induction l with
  | nil => simp [place, find?]
  | cons e rest ih =>
    unfold place
    split
    · simp [find?]
    · split <;> simp_all [find?]

theorem find?_place_ne {k j : κ} (h : j ≠ k) (a : α) (l : List (κ × α)) :
    find? j (place k a l) = find? j l := by
  have hk : k ≠ j := Ne.symm h
  induction l with
  | nil => simp [place, find?, hk]
  | cons e rest ih =>
    unfold place
    split
    · simp_all [find?]
    · split <;> simp_all [find?]

@[simp] theorem get?_insert_self (t : Table κ α) (k : κ) (a : α) :
    (t.insert k a).get? k = some a :=
  find?_place_self k a t.toList

theorem get?_insert_ne (t : Table κ α) {k j : κ} (h : j ≠ k) (a : α) :
    (t.insert k a).get? j = t.get? j :=
  find?_place_ne h a t.toList

theorem get?_insert (t : Table κ α) (k j : κ) (a : α) :
    (t.insert k a).get? j = if j = k then some a else t.get? j := by
  by_cases h : j = k
  · rw [if_pos h, h, get?_insert_self]
  · rw [if_neg h, get?_insert_ne t h]

theorem perm_place {k : κ} {l : List (κ × α)} (h : find? k l = none) (a : α) :
    (place k a l).Perm ((k, a) :: l) := by
  induction l with
  | nil => exact List.Perm.refl _
  | cons e rest ih =>
    obtain ⟨j, b⟩ := e
    by_cases hj : j = k
    · simp [find?, hj] at h
    · rw [find?, if_neg hj] at h
      rw [place, if_neg hj]
      split
      · exact List.Perm.refl _
      · exact ((ih h).cons _).trans (List.Perm.swap _ _ _)

theorem mem_place {k : κ} {a : α} {l : List (κ × α)} {b : κ × α} (h : b ∈ place k a l) :
    b = (k, a) ∨ b ∈ l := by
  induction l with
  | nil => exact .inl (List.mem_singleton.mp h)
  | cons e rest ih =>
    unfold place at h
    split at h
    · rcases List.mem_cons.mp h with h | h
      · exact .inl h
      · exact .inr (List.mem_cons_of_mem _ h)
    · split at h
      · exact List.mem_cons.mp h
      · rcases List.mem_cons.mp h with h | h
        · exact .inr (h ▸ List.mem_cons_self)
        · exact (ih h).imp_right (List.mem_cons_of_mem _)

/-- A new binding is added to those that there were. -/
theorem perm_insert {t : Table κ α} {k : κ} (h : t.get? k = none) (a : α) :
    (t.insert k a).toList.Perm ((k, a) :: t.toList) :=
  perm_place h a

theorem nodup_keys_insert {t : Table κ α} {k : κ} (hnodup : t.keys.Nodup) (h : t.get? k = none)
    (a : α) : (t.insert k a).keys.Nodup := by
  have hperm : (t.insert k a).keys.Perm (k :: t.keys) := (perm_insert h a).map Prod.fst
  rw [hperm.nodup_iff, List.nodup_cons]
  exact ⟨find?_eq_none_iff.mp h, hnodup⟩

theorem contains_insert (t : Table κ α) (k j : κ) (a : α) :
    (t.insert k a).contains j = (decide (j = k) || t.contains j) := by
  by_cases h : j = k <;> simp [contains, get?_insert, h]

end

end Table

end TxnStore
