import TxnStore.Json.Printer
import TxnStore.Json.Reader

/-!
# Texts that are written and read

A character is written as its UTF-8 bytes, or as an escape of ASCII characters alone. Each written
character is split off and taken back by itself, and so a text between quotes is read as it was.
-/

namespace TxnStore

/-! ## Characters as bytes -/

/-- The UTF-8 bytes of characters. -/
def Text.ofChars (cs : List Char) : List UInt8 := cs.flatMap String.utf8EncodeChar

namespace Text

@[simp] theorem ofChars_nil : ofChars [] = [] := rfl

@[simp] theorem ofChars_cons (c : Char) (cs : List Char) :
    ofChars (c :: cs) = String.utf8EncodeChar c ++ ofChars cs := rfl

@[simp] theorem ofChars_append (cs ds : List Char) :
    ofChars (cs ++ ds) = ofChars cs ++ ofChars ds :=
  List.flatMap_append

theorem toBytes_ofList (cs : List Char) : toBytes (String.ofList cs) = ofChars cs := by
  rw [toBytes, String.toByteArray_ofList, List.utf8Encode]
  simp [ofChars]

theorem toBytes_eq (s : String) : toBytes s = ofChars s.toList := by
  rw [← toBytes_ofList, String.ofList_toList]

end Text

/-- Whether a byte stands for itself within a text. -/
def Json.isOrdinary (b : UInt8) : Bool := 0x20 ≤ b && b != 0x22 && b != 0x5C

/-- A character that needs no escape is written in bytes that stand for themselves. -/
theorem Json.isOrdinary_of_mem {c : Char} (hcontrol : 32 ≤ c.toNat) (hquote : c ≠ '"')
    (hbackslash : c ≠ '\\') {b : UInt8} (hb : b ∈ String.utf8EncodeChar c) :
    isOrdinary b = true := by
  have hquote' : c.val.toNat ≠ 34 := fun h => hquote (Char.ext (UInt32.toNat_inj.mp h))
  have hbackslash' : c.val.toNat ≠ 92 := fun h => hbackslash (Char.ext (UInt32.toNat_inj.mp h))
  have hcontrol' : 32 ≤ c.val.toNat := hcontrol
  -- An ASCII character is one byte, and all others have bytes beyond ASCII only.
  suffices hbyte : 32 ≤ b.toNat ∧ b.toNat ≠ 34 ∧ b.toNat ≠ 92 by
    obtain ⟨hlow, hne, hne'⟩ := hbyte
    simp only [isOrdinary, Bool.and_eq_true, decide_eq_true_eq, bne_iff_ne, ne_eq,
      UInt8.le_iff_toNat_le, ← UInt8.toNat_inj]
    exact ⟨⟨hlow, hne⟩, hne'⟩
  unfold String.utf8EncodeChar at hb
  dsimp only at hb
  generalize c.val.toNat = n at *
  split at hb
  · rw [List.mem_singleton.mp hb, UInt8.toNat_ofNat']
    omega
  · -- The bytes of a longer character are 128 and more.
    have hbeyond : ∀ m, 128 ≤ m → m < 256 → 32 ≤ (UInt8.ofNat m).toNat ∧
        (UInt8.ofNat m).toNat ≠ 34 ∧ (UInt8.ofNat m).toNat ≠ 92 := by
      intro m hlow hhigh
      rw [UInt8.toNat_ofNat']
      omega
    split at hb
    · simp only [List.mem_cons, List.not_mem_nil, or_false] at hb
      rcases hb with rfl | rfl <;> exact hbeyond _ (by omega) (by omega)
    · split at hb
      · simp only [List.mem_cons, List.not_mem_nil, or_false] at hb
        rcases hb with rfl | rfl | rfl <;> exact hbeyond _ (by omega) (by omega)
      · simp only [List.mem_cons, List.not_mem_nil, or_false] at hb
        rcases hb with rfl | rfl | rfl | rfl <;> exact hbeyond _ (by omega) (by omega)

namespace Json

/-! ## Splitting -/

theorem splitText_ordinary {b : UInt8} (h : isOrdinary b = true) (bs : List UInt8) :
    splitText (b :: bs) = (splitText bs).map fun p => (b :: p.1, p.2) := by
  simp only [isOrdinary, Bool.and_eq_true, decide_eq_true_eq, bne_iff_ne, ne_eq] at h
  obtain ⟨⟨hlow, hquote⟩, hbackslash⟩ := h
  -- An ordinary byte is neither the end of the text nor the start of an escape.
  rw [splitText.eq_def]
  split
  · next heq => cases heq
  · next heq => exact absurd (List.cons.inj heq).1 hquote
  · next heq => exact absurd (List.cons.inj heq).1 hbackslash
  · next heq => exact absurd (List.cons.inj heq).1 hbackslash
  · next b' rest _ _ _ heq =>
    obtain ⟨rfl, rfl⟩ := List.cons.inj heq
    have hnot : (b < 0x20 || b == 0x5C) = false := by
      simp [hbackslash, UInt8.not_lt.mpr hlow]
    rw [if_neg (by simp [hnot])]

theorem splitText_append {p : List UInt8} (hp : ∀ b ∈ p, isOrdinary b = true) (bs : List UInt8) :
    splitText (p ++ bs) = (splitText bs).map fun q => (p ++ q.1, q.2) := by
  induction p with
  | nil => simp
  | cons b rest ih =>
    have hrest := ih fun b' hb' => hp b' (List.mem_cons_of_mem _ hb')
    rw [List.cons_append, splitText_ordinary (hp b List.mem_cons_self), hrest, Option.map_map]
    rfl

def digitByte (n : Nat) : UInt8 := UInt8.ofNat (Hex.digit n).toNat

/-- The digits that stand for a control character. -/
theorem unit?_control : ∀ n < 32, Text.ofChars (Hex.ofByte (UInt8.ofNat n)) =
      [digitByte (n / 16), digitByte (n % 16)] ∧
    unit? 0x30 0x30 (digitByte (n / 16)) (digitByte (n % 16)) = some n := by
  decide +kernel

/-- All that the written form of a character can be: a short escape, a numbered one, or its own
bytes, which stand for themselves. -/
inductive Escaped (c : Char) : List UInt8 → Prop where
  | short (e : UInt8) (hshort : isShortEscape e = true) (hne : e ≠ 0x75)
      (hc : String.utf8EncodeChar c = [shortEscape e]) : Escaped c [0x5C, e]
  | numbered (hi lo : UInt8) (hunit : unit? 0x30 0x30 hi lo = some c.toNat)
      (hsmall : c.toNat < 32) : Escaped c [0x5C, 0x75, 0x30, 0x30, hi, lo]
  | itself (hordinary : ∀ b ∈ String.utf8EncodeChar c, isOrdinary b = true) :
      Escaped c (String.utf8EncodeChar c)

theorem escaped (c : Char) : Escaped c (Text.ofChars (escape c)) := by
  unfold escape
  -- The short escapes come first, and then the numbered ones of the control characters.
  split
  · exact .short 0x22 rfl (by decide) (by decide)
  · exact .short 0x5C rfl (by decide) (by decide)
  · exact .short 0x62 rfl (by decide) (by decide)
  · exact .short 0x66 rfl (by decide) (by decide)
  · exact .short 0x6E rfl (by decide) (by decide)
  · exact .short 0x72 rfl (by decide) (by decide)
  · exact .short 0x74 rfl (by decide) (by decide)
  next hquote hbackslash _ _ _ _ _ =>
  split
  · next hsmall =>
    obtain ⟨hdigits, hunit⟩ := unit?_control c.toNat hsmall
    have hbytes := Escaped.numbered _ _ hunit hsmall
    rw [Text.ofChars_cons, Text.ofChars_cons, Text.ofChars_cons, Text.ofChars_cons, hdigits]
    exact hbytes
  · -- What is left stands for itself.
    next hlarge =>
    rw [Text.ofChars_cons, Text.ofChars_nil, List.append_nil]
    exact .itself fun b hb => isOrdinary_of_mem (by omega) hquote hbackslash hb

theorem splitText_short {e : UInt8} (hshort : isShortEscape e = true) (hne : e ≠ 0x75)
    (bs : List UInt8) :
    splitText (0x5C :: e :: bs) = (splitText bs).map fun q => (0x5C :: e :: q.1, q.2) := by
  -- The branches before the one for short escapes do not apply.
  rw [splitText.eq_def]
  split
  · next heq => cases heq
  · next heq => cases heq
  · next heq => exact absurd (List.cons.inj (List.cons.inj heq).2).1 hne
  · next e' rest _ heq =>
    obtain ⟨rfl, rfl⟩ := List.cons.inj (List.cons.inj heq).2
    rw [if_pos hshort]
  · next hother heq =>
    obtain ⟨rfl, rfl⟩ := List.cons.inj heq
    exact (hother e bs rfl rfl).elim

theorem splitText_numbered {a b c d : UInt8} (hunit : (unit? a b c d).isSome = true)
    (bs : List UInt8) :
    splitText (0x5C :: 0x75 :: a :: b :: c :: d :: bs) =
      (splitText bs).map fun q => (0x5C :: 0x75 :: a :: b :: c :: d :: q.1, q.2) := by
  rw [splitText.eq_def]
  simp only [hunit, if_true]

/-- A written character is split off by itself. -/
theorem Escaped.splitText {c : Char} {p : List UInt8} (h : Escaped c p) (bs : List UInt8) :
    splitText (p ++ bs) = (splitText bs).map fun q => (p ++ q.1, q.2) := by
  cases h with
  | short e hshort hne => exact splitText_short hshort hne bs
  | numbered hi lo hunit => exact splitText_numbered (by rw [hunit]; rfl) bs
  | itself hordinary => exact splitText_append hordinary bs

/-! ## Taking back -/

theorem unescape_ordinary {b : UInt8} (h : isOrdinary b = true) (raw : List UInt8) :
    unescape (b :: raw) = (unescape raw).map (b :: ·) := by
  have hbackslash : b ≠ 0x5C := by
    simp only [isOrdinary, Bool.and_eq_true, bne_iff_ne] at h
    exact h.2
  -- An ordinary byte starts no escape.
  rw [unescape.eq_def]
  split
  · next heq => cases heq
  · next heq => exact absurd (List.cons.inj heq).1 hbackslash
  · next heq => exact absurd (List.cons.inj heq).1 hbackslash
  · next heq => exact absurd (List.cons.inj heq).1 hbackslash
  · next b' rest _ _ _ heq =>
    obtain ⟨rfl, rfl⟩ := List.cons.inj heq
    rfl

theorem unescape_append {p : List UInt8} (hp : ∀ b ∈ p, isOrdinary b = true) (raw : List UInt8) :
    unescape (p ++ raw) = (unescape raw).map (p ++ ·) := by
  induction p with
  | nil => simp
  | cons b rest ih =>
    have hrest := ih fun b' hb' => hp b' (List.mem_cons_of_mem _ hb')
    rw [List.cons_append, unescape_ordinary (hp b List.mem_cons_self), hrest, Option.map_map]
    rfl

theorem unescape_short {e : UInt8} (hne : e ≠ 0x75) (raw : List UInt8) :
    unescape (0x5C :: e :: raw) = (unescape raw).map (shortEscape e :: ·) := by
  -- An escape of one letter is not a numbered one.
  rw [unescape.eq_def]
  split
  · next heq => cases heq
  · next heq => exact absurd (List.cons.inj (List.cons.inj heq).2).1 hne
  · next heq => exact absurd (List.cons.inj (List.cons.inj heq).2).1 hne
  · next e' rest _ _ heq =>
    obtain ⟨rfl, rfl⟩ := List.cons.inj (List.cons.inj heq).2
    rfl
  · next hother heq =>
    obtain ⟨rfl, rfl⟩ := List.cons.inj heq
    exact (hother e raw rfl rfl).elim

/-- A numbered escape without digits is refused. -/
theorem unescape_of_no_unit {a b c d : UInt8} (hunit : unit? a b c d = none) (raw : List UInt8) :
    unescape (0x5C :: 0x75 :: a :: b :: c :: d :: raw) = none := by
  -- Both branches for numbered escapes give up without a unit.
  rw [unescape.eq_def]
  split
  · next heq => cases heq
  · next heq =>
    simp only [List.cons.injEq, true_and] at heq
    obtain ⟨rfl, rfl, rfl, rfl, -⟩ := heq
    simp only [hunit]
  · next heq =>
    simp only [List.cons.injEq, true_and] at heq
    obtain ⟨rfl, rfl, rfl, rfl, -⟩ := heq
    simp only [hunit]
  · next hother heq =>
    obtain ⟨rfl, rfl⟩ := List.cons.inj (List.cons.inj heq).2
    exact (hother a b c d raw rfl rfl).elim
  · next hother heq =>
    obtain ⟨rfl, rfl⟩ := List.cons.inj heq
    exact (hother _ _ rfl rfl).elim

/-- A numbered escape that is no surrogate stands for its character, whatever follows. -/
theorem unescape_numbered {a b c d : UInt8} {n : Nat} (hunit : unit? a b c d = some n)
    (hn : n < 0xD800) (raw : List UInt8) :
    unescape (0x5C :: 0x75 :: a :: b :: c :: d :: raw) =
      (unescape raw).map (charBytes n ++ ·) := by
  rw [unescape.eq_def]
  split
  · next heq => cases heq
  · next a b c d a' b' c' d' rest heq =>
    simp only [List.cons.injEq, true_and] at heq
    obtain ⟨rfl, rfl, rfl, rfl, rfl⟩ := heq
    -- The escape that follows is looked at, but it is not needed.
    cases hunit' : unit? a' b' c' d' with
    | none => simp only [hunit, unescape_of_no_unit hunit' rest, Option.map_none]
    | some m =>
      simp only [hunit]
      rw [if_pos (.inl hn)]
  · next heq =>
    simp only [List.cons.injEq, true_and] at heq
    obtain ⟨rfl, rfl, rfl, rfl, rfl⟩ := heq
    simp only [hunit]
    rw [if_pos (.inl hn)]
  · next hother heq =>
    obtain ⟨rfl, rfl⟩ := List.cons.inj (List.cons.inj heq).2
    exact (hother a b c d raw rfl rfl).elim
  · next hother heq =>
    obtain ⟨rfl, rfl⟩ := List.cons.inj heq
    exact (hother _ _ rfl rfl).elim

/-- The number of a character stands for its bytes. -/
theorem charBytes_toNat (c : Char) : charBytes c.toNat = String.utf8EncodeChar c := by
  rw [charBytes, Char.ofNat_toNat, String.singleton_eq_ofList, Text.toBytes_ofList]
  simp

/-- A written character stands for the bytes of the character. -/
theorem Escaped.unescape {c : Char} {p : List UInt8} (h : Escaped c p) (raw : List UInt8) :
    unescape (p ++ raw) = (unescape raw).map (String.utf8EncodeChar c ++ ·) := by
  cases h with
  | short e hshort hne hc =>
    rw [hc]
    exact unescape_short hne raw
  | numbered hi lo hunit hsmall =>
    rw [← charBytes_toNat]
    exact unescape_numbered hunit (by omega) raw
  | itself hordinary => exact unescape_append hordinary raw

/-! ## Whole texts -/

/-- The written form of characters between quotes. -/
def escapedBytes (cs : List Char) : List UInt8 := Text.ofChars (cs.flatMap escape)

theorem escapedBytes_cons (c : Char) (cs : List Char) :
    escapedBytes (c :: cs) = Text.ofChars (escape c) ++ escapedBytes cs := by
  rw [escapedBytes, List.flatMap_cons, Text.ofChars_append]
  rfl

theorem splitText_escapedBytes (cs : List Char) (bs : List UInt8) :
    splitText (escapedBytes cs ++ 0x22 :: bs) = some (escapedBytes cs, bs) := by
  induction cs with
  | nil => rfl
  | cons c rest ih =>
    rw [escapedBytes_cons, List.append_assoc, (escaped c).splitText, ih]
    rfl

theorem unescape_escapedBytes (cs : List Char) :
    unescape (escapedBytes cs) = some (Text.ofChars cs) := by
  induction cs with
  | nil => rfl
  | cons c rest ih =>
    rw [escapedBytes_cons, (escaped c).unescape, ih]
    rfl

/-- What is written between quotes is read as it was. -/
theorem readText_escapedBytes (s : String) : readText (escapedBytes s.toList) = some s := by
  rw [readText, unescape_escapedBytes, ← Text.toBytes_eq]
  exact Text.ofBytes?_toBytes s

theorem ofChars_quote (s : String) :
    Text.ofChars (quote s) = 0x22 :: (escapedBytes s.toList ++ [0x22]) := by
  rw [quote, List.cons_append, Text.ofChars_cons, Text.ofChars_append]
  rfl

end Json

end TxnStore
