import Mathlib.Data.List.TakeDrop
import TxnStore.Proofs.Json.Texts

/-!
# Documents that are written and read

A document whose texts are all there and whose numbers are integers of at most 64 bits is read as it
was written. The reader passes over the blanks between the parts, and it knows each part by its
first byte. The bound on its recursion is never reached, since each part is shorter than what it
lies in.
-/

namespace TxnStore.Json

/-! ## Plain documents -/

mutual
/-- Whether all texts are there and all numbers are integers of at most 64 bits. -/
def isPlain : Json → Bool
  | string s => s.isSome
  | number (.integer n) => n.natAbs < UInt64.size
  | number (.decimal ..) => false
  | array items => itemsPlain items
  | object members => membersPlain members
  | _ => true

def itemsPlain : List Json → Bool
  | [] => true
  | j :: rest => isPlain j && itemsPlain rest

/-- Whether all members of an object and their keys are plain. -/
def membersPlain : List (Option String × Json) → Bool
  | [] => true
  | (k, j) :: rest => k.isSome && isPlain j && membersPlain rest
end

mutual
/-- A plain document can be held by a reader that does not know what it is for. -/
theorem isReadable_of_isPlain : ∀ {j : Json}, j.isPlain = true → j.isReadable = true
  | null, _ => rfl
  | bool _, _ => rfl
  | number (.integer _), _ => rfl
  | number (.decimal ..), h => by cases h
  | string _, h => h
  | array _, h => itemsReadable_of_itemsPlain h
  | object _, h => membersReadable_of_membersPlain h

theorem itemsReadable_of_itemsPlain : ∀ {items : List Json}, itemsPlain items = true →
    itemsReadable items = true
  | [], _ => rfl
  | j :: rest, h => by
    rw [itemsPlain, Bool.and_eq_true] at h
    rw [itemsReadable, isReadable_of_isPlain h.1, itemsReadable_of_itemsPlain h.2]
    rfl

theorem membersReadable_of_membersPlain : ∀ {members : List (Option String × Json)},
    membersPlain members = true → membersReadable members = true
  | [], _ => rfl
  | (k, j) :: rest, h => by
    rw [membersPlain, Bool.and_eq_true, Bool.and_eq_true] at h
    rw [membersReadable, h.1.1, isReadable_of_isPlain h.1.2, membersReadable_of_membersPlain h.2]
    rfl
end

theorem membersDepth_eq_zero {members : List (String × Json)}
    (h : ∀ m ∈ members, m.2.depth = 0) :
    membersDepth (members.map fun m => (some m.1, m.2)) = 0 := by
  induction members with
  | nil => rfl
  | cons m rest ih =>
    rw [List.map_cons, membersDepth, h m List.mem_cons_self,
      ih fun m' hm' => h m' (List.mem_cons_of_mem _ hm')]
    rfl

/-! ## Numbers -/

def decimalByte (c : Char) : UInt8 := UInt8.ofNat c.toNat

theorem toNat_isDigit {c : Char} (h : c.isDigit = true) : 48 ≤ c.toNat ∧ c.toNat ≤ 57 := by
  simp only [Char.isDigit, Bool.and_eq_true, decide_eq_true_eq, ge_iff_le,
    UInt32.le_iff_toNat_le] at h
  exact h

theorem ofChars_digits {cs : List Char} (h : ∀ c ∈ cs, c.isDigit = true) :
    Text.ofChars cs = cs.map decimalByte := by
  -- By induction on the digits, each of which is a byte of its own.
  induction cs with
  | nil => rfl
  | cons c rest ih =>
    have hc := toNat_isDigit (h c List.mem_cons_self)
    have hbyte : String.utf8EncodeChar c = [decimalByte c] := by
      unfold String.utf8EncodeChar
      exact if_pos (show c.toNat ≤ 0x7f by omega)
    rw [Text.ofChars_cons, hbyte, ih fun c' hc' => h c' (List.mem_cons_of_mem _ hc')]
    rfl

theorem isDigit_decimalByte {c : Char} (h : c.isDigit = true) :
    isDigit (decimalByte c) = true ∧ (decimalByte c).toNat = c.toNat := by
  obtain ⟨hlow, hhigh⟩ := toNat_isDigit h
  have hbyte : (decimalByte c).toNat = c.toNat := by
    rw [decimalByte, UInt8.toNat_ofNat']
    omega
  refine ⟨?_, hbyte⟩
  simp only [isDigit, Bool.and_eq_true, decide_eq_true_eq, UInt8.le_iff_toNat_le, hbyte]
  exact ⟨hlow, hhigh⟩

/-- Digits whose number fits a word are all counted. -/
theorem leadingDigits_digits {cs : List Char} (h : ∀ c ∈ cs, c.isDigit = true) (acc : Nat)
    (hfits : Nat.ofDigitChars 10 cs acc < UInt64.size) :
    leadingDigits acc (cs.map decimalByte) = (Nat.ofDigitChars 10 cs acc, 0) := by
  -- By induction on the digits, for any number that is read already.
  induction cs generalizing acc with
  | nil => rfl
  | cons c rest ih =>
    have hbyte := (isDigit_decimalByte (h c List.mem_cons_self)).2
    rw [Nat.ofDigitChars_cons] at hfits ⊢
    have hnext : 10 * acc + ((decimalByte c).toNat - 0x30) =
        10 * acc + (c.toNat - '0'.toNat) := by
      rw [hbyte]
      rfl
    rw [List.map_cons, leadingDigits, hnext]
    -- The digits so far make a number that is no greater than that of all of them.
    have hle : 10 * acc + (c.toNat - '0'.toNat) ≤
        Nat.ofDigitChars 10 rest (10 * acc + (c.toNat - '0'.toNat)) := by
      rw [Nat.ofDigitChars_eq_ofDigitChars_zero]
      exact Nat.le_add_right_of_le (Nat.le_mul_of_pos_left _ (Nat.pow_pos (by decide)))
    rw [if_pos (Nat.lt_of_le_of_lt hle hfits),
      ih (fun c' hc' => h c' (List.mem_cons_of_mem _ hc')) _ hfits]

theorem digitChar_ne_zero : ∀ n < 10, 0 < n → n.digitChar ≠ '0' := by decide

/-- A number that is not zero does not start with a zero. -/
theorem head_toDigits {n : Nat} (h : 0 < n) :
    ∃ c rest, Nat.toDigits 10 n = c :: rest ∧ c ≠ '0' := by
  induction n using Nat.strongRecOn with
  | ind n ih =>
    rw [Nat.toDigits_eq_if (by decide)]
    split
    · next hsmall => exact ⟨n.digitChar, [], rfl, digitChar_ne_zero n hsmall h⟩
    · next hlarge =>
      obtain ⟨c, rest, hdigits, hc⟩ := ih (n / 10) (by omega) (by omega)
      exact ⟨c, rest ++ [(n % 10).digitChar], by rw [hdigits]; rfl, hc⟩

/-- What may stand behind a value: a comma, a line break, or nothing. -/
def Ends (bs : List UInt8) : Prop := ∀ b ∈ bs.head?, b = 0x2C ∨ b = 0x0A

theorem Ends.head {b : UInt8} {rest : List UInt8} (h : Ends (b :: rest)) : b = 0x2C ∨ b = 0x0A :=
  h b rfl

/-- The digits of a number are split off, up to what follows the number. -/
theorem span_digits {cs : List Char} (h : ∀ c ∈ cs, c.isDigit = true) {rest : List UInt8}
    (hrest : Ends rest) :
    (cs.map decimalByte ++ rest).span isDigit = (cs.map decimalByte, rest) := by
  -- The span takes the digits, and what follows starts with none.
  have hall : ∀ b ∈ cs.map decimalByte, isDigit b = true := by
    intro b hb
    obtain ⟨c, hc, rfl⟩ := List.mem_map.mp hb
    exact (isDigit_decimalByte (h c hc)).1
  rw [List.span_eq_takeWhile_dropWhile, List.takeWhile_append_of_pos hall,
    List.dropWhile_append_of_pos hall]
  cases rest with
  | nil => simp
  | cons b rest =>
    have hstop : isDigit b = false := by
      rcases hrest.head with rfl | rfl <;> rfl
    simp [hstop]

theorem splitIntegral_toDigits (n : Nat) {rest : List UInt8} (hrest : Ends rest) :
    splitIntegral ((Nat.toDigits 10 n).map decimalByte ++ rest) =
      some ((Nat.toDigits 10 n).map decimalByte, rest) := by
  have hdigits : ∀ c ∈ Nat.toDigits 10 n, c.isDigit = true := fun c hc =>
    Nat.isDigit_of_mem_toDigits (by decide) (by decide) hc
  rw [splitIntegral, span_digits hdigits hrest]
  -- Only zero starts with the digit zero, and it has no other digits.
  by_cases hzero : n = 0
  · subst hzero
    rfl
  · obtain ⟨c, cs, hc, hne⟩ := head_toDigits (Nat.pos_of_ne_zero hzero)
    have hbyte := (isDigit_decimalByte (hdigits c (hc ▸ List.mem_cons_self))).2
    have hfirst : decimalByte c ≠ 0x30 := by
      intro heq
      rw [heq] at hbyte
      exact hne (Char.toNat_inj.mp hbyte.symm)
    rw [hc, List.map_cons]
    split
    · next heq => cases heq
    · next heq => exact absurd (List.cons.inj (Prod.mk.inj heq).1).1 hfirst
    · next heq =>
      obtain ⟨rfl, rfl⟩ := Prod.mk.inj heq
      rfl

/-- The digits of a number are read as the number, with its sign. -/
theorem readUnsigned_toDigits (negative : Bool) {n : Nat} (hfits : n < UInt64.size)
    (hsign : negative = true → n ≠ 0) {rest : List UInt8} (hrest : Ends rest) :
    readUnsigned negative ((Nat.toDigits 10 n).map decimalByte ++ rest) =
      some (.integer (if negative then -n else n), rest) := by
  have hdigits : ∀ c ∈ Nat.toDigits 10 n, c.isDigit = true := fun c hc =>
    Nat.isDigit_of_mem_toDigits (by decide) (by decide) hc
  -- Neither a point nor an exponent follows.
  have hfraction : splitFraction rest = some (none, rest) := by
    rw [splitFraction.eq_def]
    split
    · next bs => rcases hrest.head with heq | heq <;> cases heq
    · rfl
  have hexponent : splitExponent rest = some (none, rest) := by
    cases rest with
    | nil => rfl
    | cons b rest => rcases hrest.head with rfl | rfl <;> rfl
  have hleading := leadingDigits_digits hdigits 0 (by rwa [Nat.ofDigitChars_ten_toDigits])
  rw [Nat.ofDigitChars_ten_toDigits] at hleading
  rw [readUnsigned, splitIntegral_toDigits n hrest]
  simp only [hfraction, hexponent, makeNumber, hleading]
  -- The sign decides whether the number is negated.
  cases negative with
  | false => simp
  | true => simp [hsign rfl]

/-- The bytes of an integer: its sign and its digits. -/
theorem ofChars_integer (n : Int) :
    Text.ofChars (printNumber (.integer n)) =
      (if n < 0 then [0x2D] else []) ++ (Nat.toDigits 10 n.natAbs).map decimalByte := by
  have hdigits : ∀ m, Text.ofChars (Nat.toDigits 10 m) = (Nat.toDigits 10 m).map decimalByte :=
    fun m => ofChars_digits fun c hc => Nat.isDigit_of_mem_toDigits (by decide) (by decide) hc
  -- A negative number is printed as a sign and the digits of its amount.
  cases n with
  | ofNat m =>
    show Text.ofChars (toString m).toList = _
    have hpositive : ¬Int.ofNat m < 0 := Int.not_lt.mpr (Int.natCast_nonneg m)
    rw [Nat.toString_eq_ofList_toDigits, String.toList_ofList, hdigits, if_neg hpositive]
    rfl
  | negSucc m =>
    show Text.ofChars ("-" ++ toString (m + 1)).toList = _
    have hnumber : (toString (m + 1)).toList = Nat.toDigits 10 (m + 1) := by
      rw [Nat.toString_eq_ofList_toDigits, String.toList_ofList]
    rw [String.toList_append, Text.ofChars_append, hnumber, hdigits,
      if_pos (Int.negSucc_lt_zero m)]
    rfl

/-- An integer is read as it was written, and it starts with its sign or with a digit. -/
theorem readNumber_integer {n : Int} (hfits : n.natAbs < UInt64.size) {rest : List UInt8}
    (hrest : Ends rest) :
    ∃ b bs, Text.ofChars (printNumber (.integer n)) ++ rest = b :: bs ∧
      (isDigit b = true ∨ b = 0x2D) ∧ readNumber (b :: bs) = some (.integer n, rest) := by
  rw [ofChars_integer]
  -- The sign is read first, and the digits behind it are those of the amount.
  by_cases hneg : n < 0
  · refine ⟨0x2D, (Nat.toDigits 10 n.natAbs).map decimalByte ++ rest, by rw [if_pos hneg]; rfl,
      .inr rfl, ?_⟩
    show readUnsigned true _ = _
    rw [readUnsigned_toDigits true hfits (fun _ => by omega) hrest]
    simp only [if_true]
    congr 3
    omega
  · rw [if_neg hneg, List.nil_append]
    have hdigits : ∀ c ∈ Nat.toDigits 10 n.natAbs, c.isDigit = true := fun c hc =>
      Nat.isDigit_of_mem_toDigits (by decide) (by decide) hc
    have hread := readUnsigned_toDigits false hfits nofun hrest
    cases hcs : Nat.toDigits 10 n.natAbs with
    | nil => exact absurd hcs Nat.toDigits_ne_nil
    | cons c cs =>
      rw [hcs] at hdigits hread
      have hdigit := (isDigit_decimalByte (hdigits c List.mem_cons_self)).1
      refine ⟨decimalByte c, cs.map decimalByte ++ rest, rfl, .inl hdigit, ?_⟩
      have hnosign : decimalByte c ≠ 0x2D := by
        intro heq
        rw [heq] at hdigit
        cases hdigit
      -- The first byte is a digit, and so it is no sign.
      rw [readNumber.eq_def]
      split
      · next heq => exact absurd (List.cons.inj heq).1 hnosign
      · refine hread.trans ?_
        simp only [Bool.false_eq_true, if_false]
        congr 3
        omega

/-! ## Blanks -/

theorem skipBlanks_of_head {b : UInt8} (h : isBlank b = false) (bs : List UInt8) :
    skipBlanks (b :: bs) = b :: bs := by
  rw [skipBlanks, List.dropWhile_cons_of_neg (by simp [h])]

/-- A line break and the blanks behind it are passed over. -/
theorem skipBlanks_newline (level : Nat) (bs : List UInt8) :
    skipBlanks (Text.ofChars (newline level) ++ bs) = skipBlanks bs := by
  -- Blanks are printed as blanks.
  have hblanks : ∀ n, Text.ofChars (List.replicate n ' ') = List.replicate n 0x20 := by
    intro n
    induction n with
    | zero => rfl
    | succ n ih =>
      rw [List.replicate_succ, Text.ofChars_cons, ih]
      rfl
  have hall : ∀ b ∈ Text.ofChars (newline level), isBlank b = true := by
    intro b hb
    rw [newline, Text.ofChars_cons, hblanks] at hb
    rcases List.mem_append.mp hb with hb | hb
    · have hbreak : String.utf8EncodeChar '\n' = [0x0A] := by decide
      rw [hbreak] at hb
      rw [List.mem_singleton.mp hb]
      rfl
    · rw [List.eq_of_mem_replicate hb]
      rfl
  exact List.dropWhile_append_of_pos hall

/-! ## First bytes -/

section
variable {bound : Nat} {bs rest : List UInt8} {b : UInt8}

/-- A value that starts like a number is one. -/
theorem readValue_number (hskip : skipBlanks bs = b :: rest)
    (hb : isDigit b = true ∨ b = 0x2D) :
    readValue (bound + 1) bs = (readNumber (b :: rest)).map fun p => (.number p.1, p.2) := by
  rw [readValue.eq_def]
  dsimp only
  rw [hskip]
  -- A number starts with none of the bytes that the other values start with.
  split
  · next heq => rcases hb with hb | hb <;> cases (List.cons.inj heq).1 ▸ hb
  · next heq => rcases hb with hb | hb <;> cases (List.cons.inj heq).1 ▸ hb
  · next heq => rcases hb with hb | hb <;> cases (List.cons.inj heq).1 ▸ hb
  · next heq => rcases hb with hb | hb <;> cases (List.cons.inj heq).1 ▸ hb
  · next heq => rcases hb with hb | hb <;> cases (List.cons.inj heq).1 ▸ hb
  · next heq => rcases hb with hb | hb <;> cases (List.cons.inj heq).1 ▸ hb
  · rfl

theorem readValue_array (hskip : skipBlanks bs = 0x5B :: rest) {items : List UInt8}
    (hitems : skipBlanks rest = b :: items) (hb : b ≠ 0x5D) :
    readValue (bound + 1) bs =
      (readItems bound (b :: items)).map fun p => (.array p.1, p.2) := by
  rw [readValue.eq_def]
  dsimp only
  rw [hskip]
  simp only [hitems]
  split
  · next heq => exact absurd (List.cons.inj heq).1 hb
  · rfl

theorem readValue_object (hskip : skipBlanks bs = 0x7B :: rest) {members : List UInt8}
    (hmembers : skipBlanks rest = b :: members) (hb : b ≠ 0x7D) :
    readValue (bound + 1) bs =
      (readMembers bound (b :: members)).map fun p => (.object p.1, p.2) := by
  rw [readValue.eq_def]
  dsimp only
  rw [hskip]
  simp only [hmembers]
  split
  · next heq => exact absurd (List.cons.inj heq).1 hb
  · rfl

end

/-- A digit is no blank. -/
theorem isBlank_of_isDigit {b : UInt8} (h : isDigit b = true) : isBlank b = false := by
  simp only [isDigit, Bool.and_eq_true, decide_eq_true_eq, UInt8.le_iff_toNat_le] at h
  have hlow : 48 ≤ b.toNat := h.1
  simp only [isBlank, Bool.or_eq_false_iff, beq_eq_false_iff_ne, ne_eq, ← UInt8.toNat_inj]
  refine ⟨⟨⟨?_, ?_⟩, ?_⟩, ?_⟩ <;> intro heq <;> rw [heq] at hlow <;> revert hlow <;> decide

/-- A written value starts with a byte that is no blank and closes nothing. -/
theorem head_print {j : Json} (hj : j.isPlain = true) (level : Nat) {rest : List UInt8}
    (hrest : Ends rest) :
    ∃ b bs, Text.ofChars (print level j) ++ rest = b :: bs ∧ isBlank b = false ∧ b ≠ 0x5D := by
  -- Each value starts with a byte of its own.
  cases j with
  | null => exact ⟨0x6E, _, rfl, rfl, by decide⟩
  | bool b =>
    cases b with
    | true => exact ⟨0x74, _, rfl, rfl, by decide⟩
    | false => exact ⟨0x66, _, rfl, rfl, by decide⟩
  | number n =>
    cases n with
    | integer n =>
      obtain ⟨b, bs, hprint, hb, -⟩ := readNumber_integer (by simpa [isPlain] using hj) hrest
      refine ⟨b, bs, hprint, ?_, ?_⟩
      · rcases hb with hb | rfl
        · exact isBlank_of_isDigit hb
        · rfl
      · rintro rfl
        rcases hb with hb | hb <;> cases hb
    | decimal digits exponent => simp [isPlain] at hj
  | string s =>
    exact ⟨0x22, _, by rw [print, ofChars_quote]; rfl, rfl, by decide⟩
  | array items =>
    cases items with
    | nil => exact ⟨0x5B, _, rfl, rfl, by decide⟩
    | cons j items => exact ⟨0x5B, _, by rw [print]; rfl, rfl, by decide⟩
  | object members =>
    cases members with
    | nil => exact ⟨0x7B, _, rfl, rfl, by decide⟩
    | cons m members => exact ⟨0x7B, _, by rw [print]; rfl, rfl, by decide⟩

theorem skipBlanks_print {j : Json} (hj : j.isPlain = true) (level : Nat) {rest : List UInt8}
    (hrest : Ends rest) :
    skipBlanks (Text.ofChars (print level j) ++ rest) = Text.ofChars (print level j) ++ rest := by
  obtain ⟨b, bs, hprint, hb, -⟩ := head_print hj level hrest
  rw [hprint, skipBlanks_of_head hb]

/-! ## Lists of parts -/

theorem ends_newline (level : Nat) (bs : List UInt8) :
    Ends (Text.ofChars (newline level) ++ bs) := by
  intro b hb
  obtain rfl : 0x0A = b := Option.some.inj hb
  exact .inr rfl

theorem ofChars_printItems (level : Nat) (j : Json) (items : List Json) :
    Text.ofChars (printItems level (j :: items)) =
      0x2C :: (Text.ofChars (newline level) ++
        (Text.ofChars (print level j) ++ Text.ofChars (printItems level items))) := by
  rw [printItems, List.cons_append, List.cons_append, Text.ofChars_cons, Text.ofChars_append,
    Text.ofChars_append, List.append_assoc]
  rfl

theorem ofChars_printMembers (level : Nat) (k : String) (j : Json)
    (members : List (Option String × Json)) :
    Text.ofChars (printMembers level ((some k, j) :: members)) =
      0x2C :: (Text.ofChars (newline level) ++
        0x22 :: (escapedBytes k.toList ++ 0x22 :: 0x3A :: 0x20 ::
          (Text.ofChars (print level j) ++ Text.ofChars (printMembers level members)))) := by
  rw [printMembers]
  simp only [List.cons_append, Text.ofChars_cons, Text.ofChars_append, Option.getD_some,
    ofChars_quote, List.append_assoc, List.nil_append]
  rfl

/-- Behind an item there is a comma or the line break before the bracket. -/
theorem ends_items (level level' : Nat) (items : List Json) (bs : List UInt8) :
    Ends (Text.ofChars (printItems level items) ++ (Text.ofChars (newline level') ++ bs)) := by
  cases items with
  | nil => exact ends_newline level' bs
  | cons j items =>
    rw [ofChars_printItems]
    intro b hb
    obtain rfl : 0x2C = b := Option.some.inj hb
    exact .inl rfl

/-- Behind a member there is a comma or the line break before the brace. -/
theorem ends_members (level level' : Nat) {members : List (Option String × Json)}
    (hmembers : membersPlain members = true) (bs : List UInt8) :
    Ends (Text.ofChars (printMembers level members) ++ (Text.ofChars (newline level') ++ bs)) := by
  match members, hmembers with
  | [], _ => exact ends_newline level' bs
  | (some k, j) :: members, _ =>
    rw [ofChars_printMembers]
    intro b hb
    obtain rfl : 0x2C = b := Option.some.inj hb
    exact .inl rfl

/-! ## Whole documents -/

/-- A bound on the recursion that is enough for every value that is shorter, and for the parts of an
array or of an object that are shorter together. -/
structure IsEnough (bound : Nat) : Prop where
  value : ∀ {j : Json} {level : Nat} {bs rest : List UInt8}, j.isPlain = true → Ends rest →
    (Text.ofChars (print level j)).length < bound →
    skipBlanks bs = Text.ofChars (print level j) ++ rest → readValue bound bs = some (j, rest)
  items : ∀ {j : Json} {items : List Json} {level level' : Nat} {bs rest : List UInt8},
    j.isPlain = true → itemsPlain items = true →
    (Text.ofChars (print level j)).length + (Text.ofChars (printItems level items)).length + 1 <
      bound →
    skipBlanks bs = Text.ofChars (print level j) ++ (Text.ofChars (printItems level items) ++
      (Text.ofChars (newline level') ++ 0x5D :: rest)) →
    readItems bound bs = some (j :: items, rest)
  members : ∀ {k : String} {j : Json} {members : List (Option String × Json)}
    {level level' : Nat} {bs rest : List UInt8}, j.isPlain = true → membersPlain members = true →
    (Text.ofChars (print level j)).length + (Text.ofChars (printMembers level members)).length + 1 <
      bound →
    skipBlanks bs = 0x22 :: (escapedBytes k.toList ++ 0x22 :: 0x3A :: 0x20 ::
      (Text.ofChars (print level j) ++ (Text.ofChars (printMembers level members) ++
        (Text.ofChars (newline level') ++ 0x7D :: rest)))) →
    readMembers bound bs = some ((some k, j) :: members, rest)

namespace IsEnough

variable {bound : Nat}

/-- The items of an array are read one after the other. -/
theorem items_succ (h : IsEnough bound) {j : Json} {items : List Json} {level level' : Nat}
    {bs rest : List UInt8} (hj : j.isPlain = true) (hitems : itemsPlain items = true)
    (hbound : (Text.ofChars (print level j)).length +
      (Text.ofChars (printItems level items)).length < bound)
    (hskip : skipBlanks bs = Text.ofChars (print level j) ++
      (Text.ofChars (printItems level items) ++ (Text.ofChars (newline level') ++ 0x5D :: rest))) :
    readItems (bound + 1) bs = some (j :: items, rest) := by
  have hvalue := h.value hj (ends_items level level' items (0x5D :: rest)) (by omega) hskip
  rw [readItems, hvalue]
  -- The list ends here, or a comma and another item follow.
  cases items with
  | nil =>
    have hclose : skipBlanks (Text.ofChars (printItems level []) ++
        (Text.ofChars (newline level') ++ 0x5D :: rest)) = 0x5D :: rest :=
      (skipBlanks_newline level' _).trans (skipBlanks_of_head rfl _)
    simp only [hclose]
  | cons j' items =>
    rw [itemsPlain, Bool.and_eq_true] at hitems
    rw [ofChars_printItems] at hbound ⊢
    have hskip' := (skipBlanks_newline level _).trans
      (skipBlanks_print hitems.1 level (ends_items level level' items (0x5D :: rest)))
    simp only [List.length_cons, List.length_append] at hbound
    have hnext := h.items hitems.1 hitems.2 (by omega) hskip'
    simp only [List.cons_append, List.append_assoc, skipBlanks_of_head (b := 0x2C) rfl, hnext,
      Option.map_some]

/-- The members of an object are read one after the other, each behind its key. -/
theorem members_succ (h : IsEnough bound) {k : String} {j : Json}
    {members : List (Option String × Json)} {level level' : Nat} {bs rest : List UInt8}
    (hj : j.isPlain = true) (hmembers : membersPlain members = true)
    (hbound : (Text.ofChars (print level j)).length +
      (Text.ofChars (printMembers level members)).length < bound)
    (hskip : skipBlanks bs = 0x22 :: (escapedBytes k.toList ++ 0x22 :: 0x3A :: 0x20 ::
      (Text.ofChars (print level j) ++ (Text.ofChars (printMembers level members) ++
        (Text.ofChars (newline level') ++ 0x7D :: rest))))) :
    readMembers (bound + 1) bs = some ((some k, j) :: members, rest) := by
  have hends := ends_members level level' hmembers (0x7D :: rest)
  have hblank : skipBlanks (0x20 :: (Text.ofChars (print level j) ++
      (Text.ofChars (printMembers level members) ++
        (Text.ofChars (newline level') ++ 0x7D :: rest)))) = _ := skipBlanks_print hj level hends
  have hvalue := h.value hj hends (by omega) hblank
  rw [readMembers, hskip]
  simp only [splitText_escapedBytes, skipBlanks_of_head (b := 0x3A) rfl, hvalue,
    readText_escapedBytes]
  -- The object ends here, or a comma and another key follow.
  match members, hmembers with
  | [], _ =>
    have hclose : skipBlanks (Text.ofChars (printMembers level []) ++
        (Text.ofChars (newline level') ++ 0x7D :: rest)) = 0x7D :: rest :=
      (skipBlanks_newline level' _).trans (skipBlanks_of_head rfl _)
    simp only [hclose]
  | (some k', j') :: members, hmembers =>
    rw [membersPlain, Bool.and_eq_true, Bool.and_eq_true] at hmembers
    obtain ⟨⟨-, hj'⟩, hmembers⟩ := hmembers
    rw [ofChars_printMembers] at hbound ⊢
    have hskip' := (skipBlanks_newline level _).trans (skipBlanks_of_head (b := 0x22) rfl
      (escapedBytes k'.toList ++ 0x22 :: 0x3A :: 0x20 :: (Text.ofChars (print level j') ++
        (Text.ofChars (printMembers level members) ++
          (Text.ofChars (newline level') ++ 0x7D :: rest)))))
    simp only [List.length_cons, List.length_append] at hbound
    have hnext := h.members hj' hmembers (by omega) hskip'
    simp only [List.cons_append, List.append_assoc, skipBlanks_of_head (b := 0x2C) rfl, hnext,
      Option.map_some]

/-- An array is read up to its closing bracket. -/
theorem array_succ (h : IsEnough bound) {items : List Json} {level : Nat} {bs rest : List UInt8}
    (hitems : itemsPlain items = true)
    (hbound : (Text.ofChars (print level (.array items))).length < bound + 1)
    (hskip : skipBlanks bs = Text.ofChars (print level (.array items)) ++ rest) :
    readValue (bound + 1) bs = some (.array items, rest) := by
  -- An empty array has nothing between its brackets.
  cases items with
  | nil => rw [readValue, hskip]; rfl
  | cons j items =>
    rw [itemsPlain, Bool.and_eq_true] at hitems
    obtain ⟨hj, hitems⟩ := hitems
    let behind := Text.ofChars (printItems (level + 1) items) ++
      (Text.ofChars (newline level) ++ 0x5D :: rest)
    have hprint : Text.ofChars (print level (.array (j :: items))) ++ rest =
        0x5B :: (Text.ofChars (newline (level + 1)) ++
          (Text.ofChars (print (level + 1) j) ++ behind)) := by
      rw [print]
      simp only [List.cons_append, Text.ofChars_cons, Text.ofChars_append, List.append_assoc]
      rfl
    have hlength := congrArg List.length hprint
    simp only [List.length_cons, List.length_append, behind] at hlength
    -- The first item is found behind the blanks.
    have hends := ends_items (level + 1) level items (0x5D :: rest)
    have hfirst := skipBlanks_print hj (level + 1) hends
    obtain ⟨b, u, hhead, -, hb⟩ := head_print hj (level + 1) hends
    have hread := h.items hj hitems (by omega) hfirst
    rw [readValue_array (hskip.trans hprint)
      ((skipBlanks_newline (level + 1) _).trans (hfirst.trans hhead)) hb, ← hhead, hread]
    rfl

/-- An object is read up to its closing brace. -/
theorem object_succ (h : IsEnough bound) {members : List (Option String × Json)} {level : Nat}
    {bs rest : List UInt8} (hmembers : membersPlain members = true)
    (hbound : (Text.ofChars (print level (.object members))).length < bound + 1)
    (hskip : skipBlanks bs = Text.ofChars (print level (.object members)) ++ rest) :
    readValue (bound + 1) bs = some (.object members, rest) := by
  -- An empty object has nothing between its braces.
  match members, hmembers with
  | [], _ => rw [readValue, hskip]; rfl
  | (some k, j) :: members, hmembers =>
    rw [membersPlain, Bool.and_eq_true, Bool.and_eq_true] at hmembers
    obtain ⟨⟨-, hj⟩, hmembers⟩ := hmembers
    let behind := escapedBytes k.toList ++ 0x22 :: 0x3A :: 0x20 ::
      (Text.ofChars (print (level + 1) j) ++ (Text.ofChars (printMembers (level + 1) members) ++
        (Text.ofChars (newline level) ++ 0x7D :: rest)))
    have hprint : Text.ofChars (print level (.object ((some k, j) :: members))) ++ rest =
        0x7B :: (Text.ofChars (newline (level + 1)) ++ 0x22 :: behind) := by
      rw [print]
      simp only [List.cons_append, Text.ofChars_cons, Text.ofChars_append, Option.getD_some,
        ofChars_quote, List.append_assoc, List.nil_append]
      rfl
    have hlength := congrArg List.length hprint
    simp only [List.length_cons, List.length_append, behind] at hlength
    -- The first key is found behind the blanks.
    have hfirst : skipBlanks (0x22 :: behind) = 0x22 :: behind := skipBlanks_of_head rfl _
    have hread := h.members hj hmembers (by omega) hfirst
    rw [readValue_object (hskip.trans hprint) ((skipBlanks_newline (level + 1) _).trans hfirst)
      (by decide), hread]
    rfl

/-- A value is read by its first byte. -/
theorem value_succ (h : IsEnough bound) {j : Json} {level : Nat} {bs rest : List UInt8}
    (hj : j.isPlain = true) (hrest : Ends rest)
    (hbound : (Text.ofChars (print level j)).length < bound + 1)
    (hskip : skipBlanks bs = Text.ofChars (print level j) ++ rest) :
    readValue (bound + 1) bs = some (j, rest) := by
  -- Each constructor is read by the branch that its first byte leads to.
  cases j with
  | null => rw [readValue, hskip]; rfl
  | bool b =>
    cases b with
    | true => rw [readValue, hskip]; rfl
    | false => rw [readValue, hskip]; rfl
  | number n =>
    cases n with
    | integer n =>
      obtain ⟨b, bs', hprint, hb, hread⟩ := readNumber_integer (by simpa [isPlain] using hj) hrest
      rw [readValue_number (hskip.trans hprint) hb, hread]
      rfl
    | decimal digits exponent => simp [isPlain] at hj
  | string s =>
    match s, hj with
    | some s, _ =>
      have hquoted : skipBlanks bs = 0x22 :: (escapedBytes s.toList ++ 0x22 :: rest) := by
        rw [hskip, print, Option.getD_some, ofChars_quote, List.cons_append, List.append_assoc]
        rfl
      rw [readValue, hquoted]
      simp only [splitText_escapedBytes, readText_escapedBytes, Option.map_some]
  | array items => exact h.array_succ hj hbound hskip
  | object members => exact h.object_succ hj hbound hskip

end IsEnough

/-- Every bound is enough for what is shorter. -/
theorem isEnough (bound : Nat) : IsEnough bound := by
  -- By induction on the bound: a value needs as many steps as it has bytes at most.
  induction bound with
  | zero =>
    exact
      { value := fun _ _ hbound => absurd hbound (Nat.not_lt_zero _)
        items := fun _ _ hbound => absurd hbound (Nat.not_lt_zero _)
        members := fun _ _ hbound => absurd hbound (Nat.not_lt_zero _) }
  | succ bound ih =>
    exact
      { value := ih.value_succ
        items := fun hj hitems hbound => ih.items_succ hj hitems (by omega)
        members := fun hj hmembers hbound => ih.members_succ hj hmembers (by omega) }

/-- A plain document is read as it was written. -/
theorem ofBytes?_pretty {j : Json} (hj : j.isPlain = true) :
    ofBytes? (Text.toBytes j.pretty) = some j := by
  have hends : Ends [] := nofun
  have hskip := skipBlanks_print hj 0 hends
  rw [List.append_nil] at hskip
  have hread := (isEnough (2 * (Text.ofChars (print 0 j)).length + 2)).value hj hends
    (by omega) (hskip.trans (List.append_nil _).symm)
  rw [ofBytes?, pretty, Text.toBytes_ofList, hread]
  rfl

end TxnStore.Json
