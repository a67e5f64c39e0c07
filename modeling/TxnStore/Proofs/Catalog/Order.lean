import TxnStore.Catalog.Store

/-!
# Tables in order

The bindings of a table stand in the ascending order of their keys, whichever writes it has seen.
So no key is bound twice, and the table is what comes of binding its own list one after the other.
-/

namespace TxnStore

namespace Table

variable {κ α : Type} [Ord κ]

/-- The keys stand in ascending order, none of them twice. -/
def IsSorted (t : Table κ α) : Prop := t.keys.Pairwise fun j k => compare j k = .lt

theorem isSorted_empty : (empty : Table κ α).IsSorted := List.Pairwise.nil

section
variable [DecidableEq κ]

theorem IsSorted.erase {t : Table κ α} (h : t.IsSorted) (k : κ) : (t.erase k).IsSorted :=
  h.sublist (List.filter_sublist.map Prod.fst)

theorem IsSorted.modify {t : Table κ α} (h : t.IsSorted) (k : κ) (f : α → α) :
    (t.modify k f).IsSorted := by
  unfold IsSorted
  rw [keys_modify]
  exact h

end

/-- No key comes before itself. -/
theorem ne_of_compare_eq_lt [Std.LawfulEqOrd κ] {j k : κ} (h : compare j k = .lt) : j ≠ k := by
  rintro rfl
  rw [show compare j j = .eq from Std.ReflCmp.compare_self] at h
  cases h

theorem IsSorted.nodup [Std.LawfulEqOrd κ] {t : Table κ α} (h : t.IsSorted) : t.keys.Nodup :=
  h.imp ne_of_compare_eq_lt

section
variable [Std.TransOrd κ] [Std.LawfulEqOrd κ]

/-- A key that is neither another one nor before it comes behind it. -/
theorem compare_eq_lt_of_not {j k : κ} (hne : j ≠ k) (hlt : ¬compare k j = .lt) :
    compare j k = .lt := by
  cases hcompare : compare k j with
  | lt => exact absurd hcompare hlt
  | eq => exact absurd (Std.LawfulEqCmp.compare_eq_iff_eq.mp hcompare).symm hne
  | gt => exact Std.OrientedCmp.gt_iff_lt.mp hcompare

variable [DecidableEq κ]

/-- A binding that is put in its place stands behind the keys before it and before those behind. -/
theorem IsSorted.insert {t : Table κ α} (h : t.IsSorted) (k : κ) (a : α) :
    (t.insert k a).IsSorted := by
  obtain ⟨l⟩ := t
  unfold IsSorted keys at h ⊢
  show ((place k a l).map Prod.fst).Pairwise _
  rw [List.pairwise_map] at h ⊢
  -- By induction on the bindings, up to the place of the new one.
  induction l with
  | nil => exact List.pairwise_singleton _ _
  | cons e rest ih =>
    obtain ⟨j, b⟩ := e
    obtain ⟨hfirst, hrest⟩ := List.pairwise_cons.mp h
    unfold place
    split
    · next hsame =>
      -- The key was bound: its new value stands where the old one did.
      subst hsame
      exact List.pairwise_cons.mpr ⟨hfirst, hrest⟩
    · next hne =>
      split
      · next hlt =>
        -- The new binding comes before all others.
        refine List.pairwise_cons.mpr ⟨fun e he => ?_, h⟩
        rcases List.mem_cons.mp he with rfl | he
        · exact hlt
        · exact Std.TransCmp.lt_trans hlt (hfirst e he)
      · next hge =>
        -- The new binding comes later, and the first one stays the first.
        refine List.pairwise_cons.mpr ⟨fun e he => ?_, ih hrest⟩
        rcases mem_place he with rfl | he
        · exact compare_eq_lt_of_not hne hge
        · exact hfirst e he

/-- Tables in order are equal if they bind the same keys to the same values. -/
theorem IsSorted.ext {t t' : Table κ α} (h : t.IsSorted) (h' : t'.IsSorted)
    (hsame : ∀ k, t.get? k = t'.get? k) : t = t' := by
  -- A table is determined by its bindings, which are those that are found by their keys.
  have hmem : ∀ {u : Table κ α}, u.IsSorted → ∀ b, b ∈ u.toList ↔ u.get? b.1 = some b.2 :=
    fun hu b => ⟨fun hb => find?_of_mem hu.nodup hb, mem_of_find?⟩
  have hnodup : ∀ {u : Table κ α}, u.IsSorted → u.toList.Nodup := fun hu =>
    List.Pairwise.of_map Prod.fst (fun _ _ hne hab => hne (congrArg Prod.fst hab)) hu.nodup
  have hperm : t.toList.Perm t'.toList :=
    (List.perm_ext_iff_of_nodup (hnodup h) (hnodup h')).mpr fun b => by
      rw [hmem h, hmem h', hsame]
  have hlist : t.toList = t'.toList := by
    refine hperm.eq_of_pairwise (fun a b _ _ hab hba => ?_) (List.pairwise_map.mp h)
      (List.pairwise_map.mp h')
    -- Of two keys only one can come before the other.
    rw [Std.OrientedCmp.gt_iff_lt.mpr hba] at hab
    cases hab
  cases t
  cases t'
  exact congrArg Table.mk hlist

/-- A key that comes behind all others is bound at the end. -/
theorem place_last {k : κ} {l : List (κ × α)} (h : ∀ e ∈ l, compare e.1 k = .lt) (a : α) :
    place k a l = l ++ [(k, a)] := by
  -- The key is compared with every binding, and none of them is the place.
  induction l with
  | nil => rfl
  | cons e rest ih =>
    obtain ⟨j, b⟩ := e
    have hlt : compare j k = .lt := h (j, b) List.mem_cons_self
    have hne : j ≠ k := ne_of_compare_eq_lt hlt
    have hge : ¬compare k j = .lt := by
      rw [Std.OrientedCmp.gt_iff_lt.mpr hlt]
      decide
    rw [place, if_neg hne, if_neg hge, ih fun e he => h e (List.mem_cons_of_mem _ he)]
    rfl

theorem isSorted_ofList (entries : List (κ × α)) : (ofList entries).IsSorted := by
  unfold ofList
  suffices hgoOn : ∀ t : Table κ α, t.IsSorted →
      (entries.foldl (fun t e => t.insert e.1 e.2) t).IsSorted from hgoOn empty isSorted_empty
  induction entries with
  | nil => exact fun _ ht => ht
  | cons e rest ih => exact fun t ht => ih _ (ht.insert e.1 e.2)

/-- A table in order is what comes of binding its list. -/
theorem ofList_toList {t : Table κ α} (h : t.IsSorted) : ofList t.toList = t := by
  obtain ⟨l⟩ := t
  unfold IsSorted keys at h
  rw [List.pairwise_map] at h
  -- The bindings that are in the table already stand before those that follow.
  suffices hgoOn : ∀ before after : List (κ × α),
      (before ++ after).Pairwise (fun a b => compare a.1 b.1 = .lt) →
        after.foldl (fun t e => t.insert e.1 e.2) ⟨before⟩ = (⟨before ++ after⟩ : Table κ α) from
    hgoOn [] l h
  intro before after
  induction after generalizing before with
  | nil => intro _; simp
  | cons e rest ih =>
    intro hsorted
    have hbefore : ∀ b ∈ before, compare b.1 e.1 = .lt := fun b hb =>
      (List.pairwise_append.mp hsorted).2.2 b hb e List.mem_cons_self
    have hplaced : (⟨before⟩ : Table κ α).insert e.1 e.2 = ⟨before ++ [e]⟩ :=
      congrArg Table.mk (place_last hbefore e.2)
    rw [List.foldl_cons, hplaced, ih (before ++ [e]) (by simpa using hsorted)]
    simp

end

end Table

/-! ## The order of the catalog -/

theorem ObjectKind.eq_of_rank {a b : ObjectKind} (h : a.rank = b.rank) : a = b := by
  cases a <;> cases b <;> first | rfl | cases h

instance : Std.TransOrd ObjectKey :=
  inferInstanceAs (Std.TransCmp (compareLex (compareOn fun k : ObjectKey => k.kind.rank)
    (compareOn fun k : ObjectKey => k.name)))

instance : Std.LawfulEqOrd ObjectKey where
  compare_self := Std.ReflCmp.compare_self
  eq_of_compare {a b} h := by
    have hboth : (compare a.kind.rank b.kind.rank).then (compare a.name b.name) = .eq := h
    obtain ⟨hkind, hname⟩ := Ordering.then_eq_eq.mp hboth
    obtain ⟨kind, name⟩ := a
    obtain ⟨kind', name'⟩ := b
    obtain rfl := ObjectKind.eq_of_rank (Std.LawfulEqCmp.compare_eq_iff_eq.mp hkind)
    obtain rfl := Std.LawfulEqCmp.compare_eq_iff_eq.mp hname
    rfl

end TxnStore
