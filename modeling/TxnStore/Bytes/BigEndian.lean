/-!
# Big-endian numbers

A number is written in a fixed count of bytes, the most significant first. Writing keeps the number
modulo a power of two, and reading gives that remainder back (`decode_encode`).
-/

namespace TxnStore.BigEndian

/-- The `width` low bytes of a number, the most significant first. -/
def encode : (width : Nat) → Nat → List UInt8
  | 0, _ => []
  | width + 1, n => UInt8.ofNat (n >>> (8 * width)) :: encode width n

/-- The number whose bytes are given, the most significant first. -/
def decode (bs : List UInt8) : Nat := bs.foldl (fun acc b => 256 * acc + b.toNat) 0

@[simp] theorem length_encode (width n : Nat) : (encode width n).length = width := by
  induction width with
  | zero => rfl
  | succ w ih => simp [encode, ih]

theorem foldl_encode (width n acc : Nat) :
    (encode width n).foldl (fun acc b => 256 * acc + b.toNat) acc =
      acc <<< (8 * width) + n % 1 <<< (8 * width) := by
  have hpow : ∀ w, 2 ^ (8 * w) = 256 ^ w := fun w => Nat.pow_mul 2 8 w
  rw [Nat.shiftLeft_eq, Nat.shiftLeft_eq, Nat.one_mul, hpow]
  induction width generalizing acc with
  | zero => simp [encode, Nat.mod_one]
  | succ w ih =>
    have shift : 256 * acc * 256 ^ w = acc * (256 ^ w * 256) := by
      rw [Nat.mul_comm 256 acc, Nat.mul_assoc, Nat.mul_comm 256]
    have low : n % (256 ^ w * 256) = n % 256 ^ w + 256 ^ w * (n / 256 ^ w % 256) := Nat.mod_mul
    have byte : n >>> (8 * w) = n / 256 ^ w := by rw [Nat.shiftRight_eq_div_pow, hpow]
    rw [encode, List.foldl_cons, ih, Nat.pow_succ, Nat.add_mul, shift, low, byte,
      UInt8.toNat_ofNat']
    rw [show (2 ^ 8 : Nat) = 256 from rfl, Nat.mul_comm (256 ^ w) (_ % 256)]
    omega

/-- Reading gives back the number modulo the power of two that the width can hold. -/
theorem decode_encode (width n : Nat) : decode (encode width n) = n % 1 <<< (8 * width) := by
  simp [decode, foldl_encode]

/-- Four bytes of a word. -/
def ofUInt32 (v : UInt32) : List UInt8 := encode 4 v.toNat

/-- Eight bytes of a word. -/
def ofUInt64 (v : UInt64) : List UInt8 := encode 8 v.toNat

/-- Eight bytes of a signed word in two's complement. -/
def ofInt64 (v : Int64) : List UInt8 := ofUInt64 v.toUInt64

/-- Two bytes of a word. -/
def ofUInt16 (v : UInt16) : List UInt8 := encode 2 v.toNat

/-- The word whose four bytes are given. -/
def toUInt32 (bs : List UInt8) : UInt32 := UInt32.ofNat (decode bs)

/-- The word whose eight bytes are given. -/
def toUInt64 (bs : List UInt8) : UInt64 := UInt64.ofNat (decode bs)

/-- The signed word whose eight bytes are given, in two's complement. -/
def toInt64 (bs : List UInt8) : Int64 := (toUInt64 bs).toInt64

/-- The word whose two bytes are given. -/
def toUInt16 (bs : List UInt8) : UInt16 := UInt16.ofNat (decode bs)

end TxnStore.BigEndian
