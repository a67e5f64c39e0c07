import TxnStore.Value.Literal

/-!
# Telling values apart by their literals

A literal shows a text as it stands. Within a row a quote in a text may therefore be taken for the
end of the text, and what follows it for further columns. Nothing else is left in doubt: the kind of
a value shows in the first character of its literal, numbers and words end before a comma or a
parenthesis, and the digits of bytes hold no quote. So values with one literal are equal, unless a
text in a row of the one goes on as if the text that stands there in the other one had ended.
-/

namespace TxnStore

/-- Words that are told from what follows by their characters can be taken apart from it. -/
theorem append_inj_of_all {p : Char → Bool} {as bs r s : List Char} (has : ∀ c ∈ as, p c = true)
    (hbs : ∀ c ∈ bs, p c = true) (hr : ∀ c ∈ r.head?, p c = false)
    (hs : ∀ c ∈ s.head?, p c = false) (h : as ++ r = bs ++ s) : as = bs ∧ r = s := by
  -- The longest run that the predicate holds of ends where it fails.
  have hstop : ∀ {ds : List Char}, (∀ c ∈ ds.head?, p c = false) → ds.takeWhile p = [] := by
    intro ds hds
    cases ds with
    | nil => rfl
    | cons c ds => rw [List.takeWhile_cons_of_neg (by simp [hds c rfl])]
  have hwords : as = bs := by
    have htake := congrArg (List.takeWhile p) h
    rwa [List.takeWhile_append_of_pos has, List.takeWhile_append_of_pos hbs, hstop hr, hstop hs,
      List.append_nil, List.append_nil] at htake
  exact ⟨hwords, List.append_cancel_left (hwords ▸ h)⟩

theorem isDigit_of_mem_repr {n : Nat} {c : Char} (h : c ∈ n.repr.toList) : c.isDigit = true := by
  rw [Nat.repr_eq_ofList_toDigits, String.toList_ofList] at h
  exact Nat.isDigit_of_mem_toDigits (by decide) (by decide) h

/-- The characters of a number are digits and a sign. -/
theorem isDigit_or_eq_of_mem_toString {n : Int} {c : Char} (h : c ∈ (toString n).toList) :
    c.isDigit = true ∨ c = '-' := by
  rw [Int.toString_eq_repr, Int.repr_eq_if] at h
  split at h
  · exact .inl (isDigit_of_mem_repr h)
  · rw [String.toList_append, List.mem_append] at h
    exact h.elim (fun hsign => .inr (List.mem_singleton.mp hsign)) fun hm =>
      .inl (isDigit_of_mem_repr hm)

theorem toString_ne_nil (n : Int) : (toString n).toList ≠ [] := by
  rw [Int.toString_eq_repr, Int.repr_eq_if]
  split
  · rw [Nat.repr_eq_ofList_toDigits, String.toList_ofList]
    exact Nat.toDigits_ne_nil
  · rw [String.toList_append]
    exact List.cons_ne_nil _ _

theorem repr_injective {m n : Nat} (h : m.repr = n.repr) : m = n := by
  have hread : ∀ k : Nat, Nat.ofDigitChars 10 k.repr.toList 0 = k := fun k => by
    rw [Nat.repr_eq_ofList_toDigits, String.toList_ofList, Nat.ofDigitChars_ten_toDigits]
  rw [← hread m, h, hread n]

/-- The sign and the digits of a number tell what number it is. -/
theorem toString_injective {m n : Int} (h : toString m = toString n) : m = n := by
  -- What has a sign is not spelled like a number without one.
  have hunsigned : ∀ k l : Nat, k.repr ≠ "-" ++ l.repr := by
    intro k l hkl
    have hsign : '-' ∈ k.repr.toList := by
      rw [hkl, String.toList_append]
      exact List.mem_cons_self
    exact absurd (isDigit_of_mem_repr hsign) (by decide)
  rw [Int.toString_eq_repr, Int.toString_eq_repr, Int.repr_eq_if, Int.repr_eq_if] at h
  -- Two numbers with the same sign have the same digits.
  split at h <;> split at h
  · have := repr_injective h
    omega
  · exact absurd h (hunsigned _ _)
  · exact absurd h.symm (hunsigned _ _)
  · have := repr_injective ((String.append_right_inj "-").mp h)
    omega

namespace Hex

theorem digitVal?_digit : ∀ n < 16, digitVal? (digit n) = some n ∧ digit n ≠ '\'' := by decide

/-- The digits of bytes are read as these bytes. -/
theorem ofChars?_chars (bs : List UInt8) : ofChars? (chars bs) = some bs := by
  -- By induction on the bytes, each of which takes two digits.
  induction bs with
  | nil => rfl
  | cons b bs ih =>
    have hhigh : b.toNat / 16 < 16 := by
      have hb := b.toNat_lt
      omega
    have hbyte : UInt8.ofNat (16 * (b.toNat / 16) + b.toNat % 16) = b := by
      rw [Nat.div_add_mod, UInt8.ofNat_toNat]
    show ofChars? (digit (b.toNat / 16) :: digit (b.toNat % 16) :: chars bs) = _
    rw [ofChars?, (digitVal?_digit _ hhigh).1, (digitVal?_digit _ (Nat.mod_lt _ (by decide))).1, ih]
    exact congrArg (some <| · :: bs) hbyte

theorem quote_not_mem_chars (bs : List UInt8) : '\'' ∉ chars bs := by
  intro hquote
  -- A digit is none of the other characters.
  obtain ⟨b, -, hb⟩ := List.mem_flatMap.mp hquote
  have hhigh : b.toNat / 16 < 16 := by
    have hb := b.toNat_lt
    omega
  simp only [ofByte, List.mem_cons, List.not_mem_nil, or_false] at hb
  rcases hb with hb | hb
  · exact (digitVal?_digit _ hhigh).2 hb.symm
  · exact (digitVal?_digit _ (Nat.mod_lt _ (by decide))).2 hb.symm

end Hex

namespace Value

/-! ## What a literal begins with -/

/-- The kind of the values whose literals begin with a character. -/
def kindOf? (c : Char) : Option ValueKind :=
  if c = 'N' then some .null
  else if c = 't' ∨ c = 'f' then some .bool
  else if c = '\'' then some .text
  else if c = 'x' then some .bytes
  else if c = '(' then some .row
  else if c.isDigit ∨ c = '-' then some .int
  else none

theorem kindOf?_number {c : Char} (h : c.isDigit = true ∨ c = '-') : kindOf? c = some .int := by
  -- A digit or a sign is none of the letters that other literals start with.
  have hother : ∀ d, d.isDigit = false → d ≠ '-' → c ≠ d := by
    rintro d hdigit hsign rfl
    rcases h with h | h
    · rw [h] at hdigit
      cases hdigit
    · exact hsign h
  rw [kindOf?, if_neg (hother 'N' rfl (by decide)), if_neg, if_neg (hother '\'' rfl (by decide)),
    if_neg (hother 'x' rfl (by decide)), if_neg (hother '(' rfl (by decide)), if_pos h]
  exact fun hbool => hbool.elim (hother 't' rfl (by decide)) (hother 'f' rfl (by decide))

/-- The first character of a literal tells the kind of the value. -/
theorem literal_eq_cons (v : Value) : ∃ c cs, v.literal = c :: cs ∧ kindOf? c = some v.kind := by
  -- Each kind of value is told by the first character.
  cases v with
  | null => exact ⟨_, _, rfl, rfl⟩
  | bool b => cases b <;> exact ⟨_, _, rfl, rfl⟩
  | int n =>
    obtain ⟨c, cs, hcs⟩ := List.exists_cons_of_ne_nil (toString_ne_nil n.toInt)
    exact ⟨c, cs, hcs, kindOf?_number (isDigit_or_eq_of_mem_toString (hcs ▸ List.mem_cons_self))⟩
  | text s => exact ⟨_, _, rfl, rfl⟩
  | bytes bs => exact ⟨_, _, rfl, rfl⟩
  | row columns => exact ⟨_, _, rfl, rfl⟩

theorem kind_eq_of_literal {v w : Value} {r s : List Char} (h : v.literal ++ r = w.literal ++ s) :
    v.kind = w.kind := by
  obtain ⟨c, cs, hv, hc⟩ := v.literal_eq_cons
  obtain ⟨d, ds, hw, hd⟩ := w.literal_eq_cons
  rw [hv, hw, List.cons_append, List.cons_append] at h
  rw [(List.cons.inj h).1, hd] at hc
  exact (Option.some.inj hc).symm

/-! ## Rows -/

/-- What stands behind a column: the end of its row, or a further column. -/
inductive EndsColumn : List Char → Prop where
  | close (rest : List Char) : EndsColumn (')' :: rest)
  | comma (rest : List Char) : EndsColumn (',' :: ' ' :: rest)

/-- The literals of the columns behind a column, with the separator in front of them. -/
def literalsBehind : List Value → List Char
  | [] => []
  | v :: rest => ',' :: ' ' :: literals (v :: rest)

theorem literals_cons (v : Value) (rest : List Value) :
    literals (v :: rest) = v.literal ++ literalsBehind rest := by
  cases rest with
  | nil => exact (List.append_nil _).symm
  | cons w rest => rfl

theorem literalsBehind_of_ne_nil {vs : List Value} (h : vs ≠ []) :
    literalsBehind vs = ',' :: ' ' :: literals vs := by
  obtain ⟨v, rest, rfl⟩ := List.exists_cons_of_ne_nil h
  rfl

theorem endsColumn_literalsBehind (vs : List Value) (r : List Char) :
    EndsColumn (literalsBehind vs ++ ')' :: r) := by
  cases vs with
  | nil => exact .close r
  | cons v vs => exact .comma _

/-- The separators tell whether there is a further column. -/
theorem literals_eq_of_literalsBehind {vs ws : List Value} {r s : List Char}
    (h : literalsBehind vs ++ ')' :: r = literalsBehind ws ++ ')' :: s) :
    literals vs ++ ')' :: r = literals ws ++ ')' :: s := by
  -- Both lists end at the same place, or both go on with a comma.
  cases vs with
  | nil =>
    cases ws with
    | nil => exact h
    | cons w ws => exact absurd (List.cons.inj h).1 (by decide)
  | cons v vs =>
    cases ws with
    | nil => exact absurd (List.cons.inj h).1 (by decide)
    | cons w ws => exact (List.cons.inj (List.cons.inj h).2).2

/-- A row without columns is told from one with columns. -/
theorem close_ne_literals (v : Value) (vs : List Value) (r s : List Char) :
    ')' :: r ≠ literals (v :: vs) ++ s := by
  intro h
  obtain ⟨c, cs, hv, hc⟩ := v.literal_eq_cons
  rw [literals_cons, hv, List.cons_append, List.cons_append] at h
  rw [← (List.cons.inj h).1] at hc
  cases hc

/-! ## Texts that go on behind a quote -/

/-- Whether a text goes on, where another one ends, with a quote and what stands behind a column. -/
def Overruns (s t : String) : Prop :=
  (s ++ "')").toList <+: t.toList ∨ (s ++ "', ").toList <+: t.toList

/-- Whether one of these texts goes on like that where one of those ends, or the other way round. -/
def Clash (ss ts : List String) : Prop := ∃ s ∈ ss, ∃ t ∈ ts, Overruns s t ∨ Overruns t s

theorem Clash.mono {ss ss' ts ts' : List String} (h : Clash ss ts) (hss : ss ⊆ ss')
    (hts : ts ⊆ ts') : Clash ss' ts' := by
  obtain ⟨s, hs, t, ht, hover⟩ := h
  exact ⟨s, hss hs, t, hts ht, hover⟩

mutual
/-- The texts in a value, however deep they stand. -/
def texts : Value → List String
  | text s => [s]
  | row columns => textsIn columns
  | _ => []

/-- The texts in columns. -/
def textsIn : List Value → List String
  | [] => []
  | v :: rest => texts v ++ textsIn rest
end

/-- The texts that stand within a row of a value. -/
def rowTexts : Value → List String
  | row columns => textsIn columns
  | _ => []

/-- A text that is longer than another one in its place overruns it. -/
theorem overruns_of_longer {s t : String} {as r q : List Char} (hr : EndsColumn r)
    (ht : t.toList = s.toList ++ as) (h : '\'' :: r = as ++ '\'' :: q) :
    s = t ∧ r = q ∨ Overruns s t := by
  -- The longer text goes on with what follows the shorter one.
  cases as with
  | nil =>
    rw [List.append_nil] at ht
    exact .inl ⟨(String.toList_inj.mp ht).symm, (List.cons.inj h).2⟩
  | cons a as =>
    obtain ⟨rfl, hrest⟩ := List.cons.inj h
    right
    -- The quote in the longer text is followed by what ends the column of the shorter one.
    cases hr with
    | close rest =>
      cases as with
      | nil => exact absurd (List.cons.inj hrest).1 (by decide)
      | cons b as =>
        obtain ⟨rfl, -⟩ := List.cons.inj hrest
        exact .inl ⟨as, by rw [ht, String.toList_append, List.append_assoc]; rfl⟩
    | comma rest =>
      cases as with
      | nil => exact absurd (List.cons.inj hrest).1 (by decide)
      | cons b as =>
        obtain ⟨rfl, hblank⟩ := List.cons.inj hrest
        cases as with
        | nil => exact absurd (List.cons.inj hblank).1 (by decide)
        | cons b as =>
          obtain ⟨rfl, -⟩ := List.cons.inj hblank
          exact .inr ⟨as, by rw [ht, String.toList_append, List.append_assoc]; rfl⟩

theorem text_append_inj {s t : String} {r q : List Char} (hr : EndsColumn r) (hq : EndsColumn q)
    (h : s.toList ++ '\'' :: r = t.toList ++ '\'' :: q) :
    s = t ∧ r = q ∨ Overruns s t ∨ Overruns t s := by
  rcases List.append_eq_append_iff.mp h with ⟨as, ht, hrest⟩ | ⟨as, hs, hrest⟩
  · exact (overruns_of_longer hr ht hrest).imp_right .inl
  · exact (overruns_of_longer hq hs hrest).imp (fun heq => ⟨heq.1.symm, heq.2.symm⟩) .inr

/-! ## Reading literals -/

theorem not_isDigit_of_endsColumn {r : List Char} (hr : EndsColumn r) :
    ∀ c ∈ r.head?, (c.isDigit || c == '-') = false := by
  rintro c hc
  cases hr with
  | close rest =>
    obtain rfl := Option.some.inj hc
    rfl
  | comma rest =>
    obtain rfl := Option.some.inj hc
    rfl

theorem number_append_inj {m n : Int64} {r s : List Char} (hr : EndsColumn r) (hs : EndsColumn s)
    (h : (toString m.toInt).toList ++ r = (toString n.toInt).toList ++ s) : m = n ∧ r = s := by
  have hnumber : ∀ k : Int, ∀ c ∈ (toString k).toList, (c.isDigit || c == '-') = true := by
    intro k c hc
    rw [Bool.or_eq_true, beq_iff_eq]
    exact isDigit_or_eq_of_mem_toString hc
  obtain ⟨hchars, hrest⟩ := append_inj_of_all (hnumber _) (hnumber _)
    (not_isDigit_of_endsColumn hr) (not_isDigit_of_endsColumn hs) h
  exact ⟨Int64.toInt_inj.mp (toString_injective (String.toList_inj.mp hchars)), hrest⟩

theorem bytes_append_inj {as bs : List UInt8} {r s : List Char}
    (h : Hex.chars as ++ '\'' :: r = Hex.chars bs ++ '\'' :: s) : as = bs ∧ r = s := by
  -- Hexadecimal digits contain no quote, so that the first quote ends them.
  have hdigits : ∀ bs : List UInt8, ∀ c ∈ Hex.chars bs, (c != '\'') = true := fun bs c hc =>
    bne_iff_ne.mpr fun hquote => Hex.quote_not_mem_chars bs (hquote ▸ hc)
  have hstop : ∀ r : List Char, ∀ c ∈ ('\'' :: r).head?, (c != '\'') = false := by
    rintro r c hc
    obtain rfl := Option.some.inj hc
    rfl
  obtain ⟨hchars, hrest⟩ := append_inj_of_all (hdigits as) (hdigits bs) (hstop r) (hstop s) h
  have hread := Hex.ofChars?_chars as
  rw [hchars, Hex.ofChars?_chars] at hread
  exact ⟨(Option.some.inj hread).symm, (List.cons.inj hrest).2⟩

mutual
/-- A column can be taken apart from what stands behind it, unless its texts clash. -/
theorem literal_append_inj : (v w : Value) → {r s : List Char} → EndsColumn r → EndsColumn s →
    v.literal ++ r = w.literal ++ s → v = w ∧ r = s ∨ Clash v.texts w.texts
  | null, w, r, s, _, _, h => by
    cases w with
    | null => exact .inl ⟨rfl, List.append_cancel_left h⟩
    | _ => cases kind_eq_of_literal h
  | bool a, w, r, s, _, _, h => by
    cases w with
    | bool b =>
      cases a <;> cases b
      · exact .inl ⟨rfl, List.append_cancel_left h⟩
      · exact absurd (List.cons.inj h).1 (by decide)
      · exact absurd (List.cons.inj h).1 (by decide)
      · exact .inl ⟨rfl, List.append_cancel_left h⟩
    | _ => cases kind_eq_of_literal h
  | int m, w, r, s, hr, hs, h => by
    cases w with
    | int n =>
      obtain ⟨rfl, hrest⟩ := number_append_inj hr hs h
      exact .inl ⟨rfl, hrest⟩
    | _ => cases kind_eq_of_literal h
  | text a, w, r, s, hr, hs, h => by
    cases w with
    | text b =>
      have htexts : a.toList ++ '\'' :: r = b.toList ++ '\'' :: s := by
        simpa [literal] using h
      rcases text_append_inj hr hs htexts with ⟨rfl, hrest⟩ | hover
      · exact .inl ⟨rfl, hrest⟩
      · exact .inr ⟨a, List.mem_singleton_self a, b, List.mem_singleton_self b, hover⟩
    | _ => cases kind_eq_of_literal h
  | bytes as, w, r, s, _, _, h => by
    cases w with
    | bytes bs =>
      have hdigits : Hex.chars as ++ '\'' :: r = Hex.chars bs ++ '\'' :: s := by
        simpa [literal] using h
      obtain ⟨rfl, hrest⟩ := bytes_append_inj hdigits
      exact .inl ⟨rfl, hrest⟩
    | _ => cases kind_eq_of_literal h
  | row vs, w, r, s, _, _, h => by
    cases w with
    | row ws =>
      have hcolumns : literals vs ++ ')' :: r = literals ws ++ ')' :: s := by
        simpa [literal] using h
      exact (literals_append_inj vs ws hcolumns).imp_left fun ⟨hsame, hrest⟩ =>
        ⟨congrArg row hsame, hrest⟩
    | _ => cases kind_eq_of_literal h

/-- The columns of a row can be told apart, unless their texts clash. -/
theorem literals_append_inj : (vs ws : List Value) → {r s : List Char} →
    literals vs ++ ')' :: r = literals ws ++ ')' :: s →
      vs = ws ∧ r = s ∨ Clash (textsIn vs) (textsIn ws)
  | [], ws, r, s, h => by
    cases ws with
    | nil => exact .inl ⟨rfl, (List.cons.inj h).2⟩
    | cons w ws => exact absurd h (close_ne_literals w ws r _)
  | v :: vs, ws, r, s, h => by
    cases ws with
    | nil => exact absurd h.symm (close_ne_literals v vs s _)
    | cons w ws =>
      rw [literals_cons, literals_cons, List.append_assoc, List.append_assoc] at h
      rcases literal_append_inj v w (endsColumn_literalsBehind vs r)
        (endsColumn_literalsBehind ws s) h with ⟨rfl, hbehind⟩ | hclash
      · rcases literals_append_inj vs ws (literals_eq_of_literalsBehind hbehind) with
          ⟨rfl, hrest⟩ | hclash
        · exact .inl ⟨rfl, hrest⟩
        · exact .inr (hclash.mono (List.subset_append_right _ _) (List.subset_append_right _ _))
      · exact .inr (hclash.mono (List.subset_append_left _ _) (List.subset_append_left _ _))
end

/-- Whatever stands before and behind it, a text that goes on behind a quote, a separator and a
quote reads like two. -/
theorem literals_of_separator (before after : List Value) (s t : String) :
    literals (before ++ text (s ++ "', '" ++ t) :: after) =
      literals (before ++ text s :: text t :: after) := by
  -- By induction on the columns before the text.
  induction before with
  | nil =>
    rw [List.nil_append, List.nil_append, literals_cons, literals_cons]
    show '\'' :: (s ++ "', '" ++ t).toList ++ ['\''] ++ literalsBehind after =
      '\'' :: s.toList ++ ['\''] ++ ',' :: ' ' :: literals (text t :: after)
    rw [literals_cons, String.toList_append, String.toList_append]
    show _ = '\'' :: s.toList ++ ['\''] ++
      ',' :: ' ' :: ('\'' :: t.toList ++ ['\''] ++ literalsBehind after)
    simp
  | cons v before ih =>
    have hsome : ∀ v vs, before ++ v :: vs ≠ [] := fun v vs =>
      List.append_ne_nil_of_right_ne_nil before (List.cons_ne_nil v vs)
    rw [List.cons_append, List.cons_append, literals_cons, literals_cons,
      literalsBehind_of_ne_nil (hsome _ _), literalsBehind_of_ne_nil (hsome _ _), ih]

/-- Values with one literal are equal, unless a text in a row of the one goes on behind a quote
where a text in a row of the other one ends. -/
theorem display_unambiguous_unless_clash (v w : Value) (h : v.display = w.display) :
    v = w ∨ Clash v.rowTexts w.rowTexts := by
  have hchars : v.literal = w.literal := String.ofList_injective h
  have hend : v.literal ++ [')'] = w.literal ++ [')'] := congrArg (· ++ [')']) hchars
  -- A text stands alone, and so both of its quotes are the outer ones.
  cases v with
  | text a =>
    cases w with
    | text b =>
      have htexts := List.append_cancel_right (List.cons.inj hchars).2
      exact .inl (congrArg text (String.toList_inj.mp htexts))
    | _ => cases kind_eq_of_literal hend
  -- The columns of a row may run into each other.
  | row vs =>
    cases w with
    | row ws =>
      exact (literals_append_inj vs ws (List.cons.inj hchars).2).imp_left fun hsame =>
        congrArg row hsame.1
    | _ => cases kind_eq_of_literal hend
  -- What is neither a text nor a row holds no text that could clash.
  | _ =>
    rcases literal_append_inj _ w (.close []) (.close []) hend with ⟨hsame, -⟩ | ⟨_, hs, -⟩
    · exact .inl hsame
    · cases hs

/-- A text that ends two rows and begins another one. -/
theorem display_unambiguous_unless_clash_of_closing_text :
    let v := row [int 7, row [text "a'), ('b"]]
    let w := row [int 7, row [text "a"], row [text "b"]]
    v.display = w.display ∧ v.display = "(7, ('a'), ('b'))" ∧ Clash v.rowTexts w.rowTexts := by
  intro v w
  have hsame : v.display = w.display := rfl
  have hdiffer : v ≠ w := by decide
  exact ⟨hsame, by decide, (display_unambiguous_unless_clash v w hsame).resolve_left hdiffer⟩

/-- A text in a row that goes on behind a quote, a separator and a quote reads like two texts. -/
theorem display_row_of_separator (before after : List Value) (s t : String) :
    (row (before ++ text (s ++ "', '" ++ t) :: after)).display =
      (row (before ++ text s :: text t :: after)).display :=
  congrArg (fun cs => String.ofList ('(' :: cs ++ [')'])) (literals_of_separator before after s t)

/-- A row with one column and a row with two have the same literal. -/
theorem display_ambiguous_of_quote :
    let v := row [text "a', 'b"]
    let w := row [text "a", text "b"]
    v.display = w.display ∧ v ≠ w :=
  ⟨display_row_of_separator [] [] "a" "b", by decide⟩

end Value

end TxnStore
