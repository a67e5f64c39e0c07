import TxnStore.Bytes.Crc32

/-!
# What checksums tell apart

A step of the register loses nothing: the bit that is shifted out comes back as the highest one,
since the polynomial has that bit set. So equal bytes keep different registers apart, different
bytes take one register to two, and runs of bytes that differ in exactly one place never have the
same sum (`ofBytes_set_ne`).
-/

namespace TxnStore

/-! ## Runs that differ in one place -/

/-- A byte at the start is changed only if it becomes another one. -/
theorem ne_of_set_zero_ne {a b : UInt8} {bs : List UInt8}
    (h : (a :: bs).set 0 b ≠ a :: bs) : b ≠ a := fun hb => h (by rw [hb, List.set_cons_zero])

/-- A change that leaves the first byte is one of the others. -/
theorem set_ne_of_set_succ_ne {a b : UInt8} {bs : List UInt8} {i : Nat}
    (h : (a :: bs).set (i + 1) b ≠ a :: bs) : bs.set i b ≠ bs := fun hb =>
  h (by rw [List.set_cons_succ, hb])

namespace Crc32

/-! ## One step of the register -/

theorem toNat_shiftRight_one (r : UInt32) : (r >>> 1).toNat = r.toNat / 2 := by
  rw [UInt32.toNat_shiftRight]
  exact Nat.shiftRight_eq_div_pow r.toNat 1

theorem and_one_eq_one_iff (r : UInt32) : r &&& 1 = 1 ↔ r.toNat % 2 = 1 := by
  rw [← UInt32.toNat_inj, UInt32.toNat_and]
  exact iff_of_eq (congrArg (· = 1) (Nat.and_one_is_mod r.toNat))

/-- The highest bit of what a shift leaves tells the bit that was shifted out. -/
theorem toNat_shiftBit_lt_iff (r : UInt32) :
    (shiftBit r).toNat < 1 <<< 31 ↔ r.toNat % 2 = 0 := by
  have hr : r.toNat < 2 ^ 32 := r.toNat_lt
  have hhalf : (r >>> 1).toNat < 2 ^ 31 := by
    rw [toNat_shiftRight_one]
    omega
  -- Whether the polynomial is taken in is told by the lowest bit.
  unfold shiftBit
  split
  · next hodd =>
    rw [and_one_eq_one_iff] at hodd
    -- Half of the register does not reach the highest bit, so that the polynomial sets it.
    have hbit : ((r >>> 1) ^^^ polynomial).toNat.testBit 31 = true := by
      rw [UInt32.toNat_xor, Nat.testBit_xor, Nat.testBit_lt_two_pow hhalf]
      rfl
    have hhigh := Nat.ge_two_pow_of_testBit hbit
    omega
  · next heven =>
    rw [and_one_eq_one_iff] at heven
    omega

/-- No two registers are shifted to the same one. -/
theorem eq_of_shiftBit_eq {r s : UInt32} (h : shiftBit r = shiftBit s) : r = s := by
  have hparity : r.toNat % 2 = 0 ↔ s.toNat % 2 = 0 := by
    rw [← toNat_shiftBit_lt_iff r, h, toNat_shiftBit_lt_iff s]
  -- The bit that was shifted out is the same, hence the polynomial was added to both or to none.
  have hhalf : r >>> 1 = s >>> 1 := by
    unfold shiftBit at h
    simp only [and_one_eq_one_iff] at h
    split at h <;> split at h
    · exact (UInt32.xor_left_inj polynomial).mp h
    · omega
    · omega
    · exact h
  have hhalves := congrArg UInt32.toNat hhalf
  rw [toNat_shiftRight_one, toNat_shiftRight_one] at hhalves
  exact UInt32.toNat_inj.mp (by omega)

theorem eq_of_shiftByte_eq {r s : UInt32} (h : shiftByte r = shiftByte s) : r = s := by
  unfold shiftByte at h
  repeat replace h := eq_of_shiftBit_eq h
  exact h

/-! ## Bytes -/

variable {c c' : Crc32} {b b' : UInt8} {bs : List UInt8}

theorem eq_of_addByte_eq (h : c.addByte b = c'.addByte b) : c = c' := by
  have hregister := eq_of_shiftByte_eq (congrArg register h)
  rw [UInt32.xor_left_inj] at hregister
  exact congrArg Crc32.mk hregister

theorem addByte_ne_of_ne (h : b ≠ b') : c.addByte b ≠ c.addByte b' := fun heq => by
  have hregister := eq_of_shiftByte_eq (congrArg register heq)
  rw [UInt32.xor_right_inj, UInt8.toUInt32_inj] at hregister
  exact h hregister

/-- Registers that differ go on to differ, whatever bytes are added to both. -/
theorem add_ne_of_ne (h : c ≠ c') (bs : List UInt8) : c.add bs ≠ c'.add bs := by
  induction bs generalizing c c' with
  | nil => exact h
  | cons b rest ih => exact ih fun heq => h (eq_of_addByte_eq heq)

/-- A change of one byte takes the register elsewhere. -/
theorem add_set_ne {i : Nat} (h : bs.set i b ≠ bs) : c.add (bs.set i b) ≠ c.add bs := by
  induction bs generalizing c i with
  | nil => exact absurd (List.set_nil ..) h
  | cons a rest ih =>
    cases i with
    | zero => exact add_ne_of_ne (addByte_ne_of_ne (ne_of_set_zero_ne h)) rest
    | succ i => exact ih (set_ne_of_set_succ_ne h)

/-- A change of one byte changes the sum. -/
theorem ofBytes_set_ne {i : Nat} (h : bs.set i b ≠ bs) : ofBytes (bs.set i b) ≠ ofBytes bs := by
  intro hsum
  have hregister := (UInt32.xor_left_inj _).mp hsum
  exact add_set_ne h (congrArg Crc32.mk hregister)

/-- A change of one byte of a payload changes the sum that guards it. -/
theorem ofFrame_set_ne {i : Nat} (salt txn : UInt64) (h : bs.set i b ≠ bs) :
    ofFrame salt txn (bs.set i b) ≠ ofFrame salt txn bs := by
  obtain ⟨front, hfront⟩ :
      ∃ front, BigEndian.ofUInt64 salt ++ BigEndian.ofUInt64 txn = front := ⟨_, rfl⟩
  have hset : (front ++ bs).set (front.length + i) b = front ++ bs.set i b := by
    rw [List.set_append_right _ _ (Nat.le_add_right _ _), Nat.add_sub_cancel_left]
  rw [ofFrame, ofFrame, hfront, ← hset]
  exact ofBytes_set_ne fun heq => h (List.append_cancel_left (hset.symm.trans heq))

end Crc32

end TxnStore
