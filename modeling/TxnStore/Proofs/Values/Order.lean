import TxnStore.Value

/-!
# The order of values

Values are ordered by kind and then by content, rows column by column. The order is total and tells
all values apart, so that the slots of a map can stand in the order of their keys.
-/

namespace TxnStore.Value

/-! ## Values of different kinds -/

/-- Values of different kinds are compared by kind. -/
theorem compare_of_rank_ne {a b : Value} (h : a.rank ≠ b.rank) :
    compare a b = Ord.compare a.rank b.rank := by
  cases a <;> cases b <;> first | rfl | exact absurd rfl h

theorem compare_of_rank_lt {a b : Value} (h : a.rank < b.rank) : compare a b = .lt := by
  rw [compare_of_rank_ne (Nat.ne_of_lt h)]
  exact Nat.compare_eq_lt.mpr h

theorem rank_eq_of_compare_eq {a b : Value} (h : compare a b = .eq) : a.rank = b.rank := by
  rcases Nat.decEq a.rank b.rank with hne | heq
  · rw [compare_of_rank_ne hne] at h
    exact absurd (Nat.compare_eq_eq.mp h) hne
  · exact heq

theorem rank_le_of_compare_lt {a b : Value} (h : compare a b = .lt) : a.rank ≤ b.rank := by
  rcases Nat.decEq a.rank b.rank with hne | heq
  · rw [compare_of_rank_ne hne] at h
    exact Nat.le_of_lt (Nat.compare_eq_lt.mp h)
  · exact Nat.le_of_eq heq

/-! ## Equal values -/

mutual
/-- No value comes before or behind itself. -/
theorem compare_self : (a : Value) → compare a a = .eq
  | null => rfl
  | bool a => @Std.ReflCmp.compare_self _ Ord.compare _ a
  | int a => @Std.ReflCmp.compare_self _ Ord.compare _ a.toInt
  | text a => @Std.ReflCmp.compare_self _ Ord.compare _ a
  | bytes a => @Std.ReflCmp.compare_self _ Ord.compare _ a
  | row a => compareRows_self a

theorem compareRows_self : (a : List Value) → compareRows a a = .eq
  | [] => rfl
  | a :: as => by rw [compareRows, compare_self a, compareRows_self as]; rfl
end

mutual
/-- Values of which none comes before the other are equal. -/
theorem eq_of_compare_eq : (a b : Value) → compare a b = .eq → a = b
  | null, b, h => by
    cases b with
    | null => rfl
    | _ => cases rank_eq_of_compare_eq h
  | bool a, b, h => by
    cases b with
    | bool b => rw [show a = b from Std.LawfulEqOrd.eq_of_compare h]
    | _ => cases rank_eq_of_compare_eq h
  | int a, b, h => by
    cases b with
    | int b => rw [Int64.toInt_inj.mp (Std.LawfulEqOrd.eq_of_compare h)]
    | _ => cases rank_eq_of_compare_eq h
  | text a, b, h => by
    cases b with
    | text b => rw [show a = b from Std.LawfulEqOrd.eq_of_compare h]
    | _ => cases rank_eq_of_compare_eq h
  | bytes a, b, h => by
    cases b with
    | bytes b => rw [show a = b from Std.LawfulEqOrd.eq_of_compare h]
    | _ => cases rank_eq_of_compare_eq h
  | row a, b, h => by
    cases b with
    | row b => rw [eq_of_compareRows_eq a b h]
    | _ => cases rank_eq_of_compare_eq h

theorem eq_of_compareRows_eq : (a b : List Value) → compareRows a b = .eq → a = b
  | [], [], _ => rfl
  | a :: as, b :: bs, h => by
    obtain ⟨hfirst, hrest⟩ := Ordering.then_eq_eq.mp h
    rw [eq_of_compare_eq a b hfirst, eq_of_compareRows_eq as bs hrest]
end

/-! ## Both directions -/

mutual
/-- The comparison of two values tells that of the same values the other way round. -/
theorem compare_swap : (a b : Value) → compare a b = (compare b a).swap
  | null, b => by cases b <;> rfl
  | bool a, b => by
    cases b with
    | bool b => exact Std.OrientedOrd.eq_swap (a := a) (b := b)
    | _ => rfl
  | int a, b => by
    cases b with
    | int b => exact Std.OrientedOrd.eq_swap (a := a.toInt) (b := b.toInt)
    | _ => rfl
  | text a, b => by
    cases b with
    | text b => exact Std.OrientedOrd.eq_swap (a := a) (b := b)
    | _ => rfl
  | bytes a, b => by
    cases b with
    | bytes b => exact Std.OrientedOrd.eq_swap (a := a) (b := b)
    | _ => rfl
  | row a, b => by
    cases b with
    | row b => exact compareRows_swap a b
    | _ => rfl

theorem compareRows_swap : (a b : List Value) → compareRows a b = (compareRows b a).swap
  | [], [] => rfl
  | [], _ :: _ => rfl
  | _ :: _, [] => rfl
  | a :: as, b :: bs => by
    rw [compareRows, compareRows, Ordering.swap_then, ← compare_swap a b, ← compareRows_swap as bs]
end

/-! ## Three values in a row -/

/-- It is enough to look at values of one kind. -/
theorem compare_lt_trans_of_kind {a b c : Value} (hab : compare a b = .lt)
    (hbc : compare b c = .lt)
    (hkind : a.rank = b.rank → b.rank = c.rank → compare a c = .lt) : compare a c = .lt := by
  have hle := rank_le_of_compare_lt hab
  have hle' := rank_le_of_compare_lt hbc
  rcases Nat.lt_or_eq_of_le (Nat.le_trans hle hle') with hlt | heq
  · exact compare_of_rank_lt hlt
  · exact hkind (by omega) (by omega)

mutual
/-- What comes before a value comes before all that are behind it. -/
theorem compare_lt_trans : (a b c : Value) → compare a b = .lt → compare b c = .lt →
    compare a c = .lt
  | null, b, c, hab, hbc => compare_lt_trans_of_kind hab hbc fun hb _ => by
    cases b with
    | null => cases hab
    | _ => cases hb
  | bool a, b, c, hab, hbc => compare_lt_trans_of_kind hab hbc fun hb hc => by
    cases b with
    | bool b =>
      cases c with
      | bool c => exact @Std.TransCmp.lt_trans _ Ord.compare _ _ b _ hab hbc
      | _ => cases hc
    | _ => cases hb
  | int a, b, c, hab, hbc => compare_lt_trans_of_kind hab hbc fun hb hc => by
    cases b with
    | int b =>
      cases c with
      | int c => exact @Std.TransCmp.lt_trans _ Ord.compare _ _ b.toInt _ hab hbc
      | _ => cases hc
    | _ => cases hb
  | text a, b, c, hab, hbc => compare_lt_trans_of_kind hab hbc fun hb hc => by
    cases b with
    | text b =>
      cases c with
      | text c => exact @Std.TransCmp.lt_trans _ Ord.compare _ _ b _ hab hbc
      | _ => cases hc
    | _ => cases hb
  | bytes a, b, c, hab, hbc => compare_lt_trans_of_kind hab hbc fun hb hc => by
    cases b with
    | bytes b =>
      cases c with
      | bytes c => exact @Std.TransCmp.lt_trans _ Ord.compare _ _ b _ hab hbc
      | _ => cases hc
    | _ => cases hb
  | row a, b, c, hab, hbc => compare_lt_trans_of_kind hab hbc fun hb hc => by
    cases b with
    | row b =>
      cases c with
      | row c => exact compareRows_lt_trans a b c hab hbc
      | _ => cases hc
    | _ => cases hb

theorem compareRows_lt_trans : (a b c : List Value) → compareRows a b = .lt →
    compareRows b c = .lt → compareRows a c = .lt
  | [], _, _ :: _, _, _ => rfl
  | [], [], [], hab, _ => by cases hab
  | [], _ :: _, [], _, hbc => by cases hbc
  | _ :: _, [], _, hab, _ => by cases hab
  | _ :: _, _ :: _, [], _, hbc => by cases hbc
  | a :: as, b :: bs, c :: cs, hab, hbc => by
    -- The first columns decide, unless both comparisons find them equal.
    refine Ordering.then_eq_lt.mpr ?_
    rcases Ordering.then_eq_lt.mp hab with hfirst | ⟨hsame, hrest⟩
    · left
      rcases Ordering.then_eq_lt.mp hbc with hnext | ⟨hsame', -⟩
      · exact compare_lt_trans a b c hfirst hnext
      · rw [← eq_of_compare_eq b c hsame']
        exact hfirst
    · rw [eq_of_compare_eq a b hsame]
      rcases Ordering.then_eq_lt.mp hbc with hnext | ⟨hsame', hrest'⟩
      · exact .inl hnext
      · exact .inr ⟨hsame', compareRows_lt_trans as bs cs hrest hrest'⟩
end

/-! ## Instances -/

instance : Std.LawfulEqOrd Value where
  compare_self := compare_self _
  eq_of_compare h := eq_of_compare_eq _ _ h

instance : Std.TransOrd Value where
  eq_swap := compare_swap _ _
  isLE_trans {a b c} hab hbc := by
    rcases Ordering.isLE_iff_eq_lt_or_eq_eq.mp hab with hlt | heq
    · rcases Ordering.isLE_iff_eq_lt_or_eq_eq.mp hbc with hlt' | heq'
      · exact Ordering.isLE_of_eq_lt (compare_lt_trans a b c hlt hlt')
      · rw [← eq_of_compare_eq b c heq']
        exact hab
    · rw [eq_of_compare_eq a b heq]
      exact hbc

end TxnStore.Value
