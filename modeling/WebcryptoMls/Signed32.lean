import Mathlib.Tactic
import Mathlib.Data.Nat.Bitwise

/-!
# Signed 32-bit operators on unbounded numbers

Some languages keep every number in one wide type and coerce the operands of
their bitwise operators to signed 32-bit integers. Shift counts are taken modulo
32. On operands in `[0, 2 ^ 31)` the operators agree with those of `ℕ`, which is
what the lemmas below say; outside that range they wrap.
-/
namespace Signed32

/-- The coercion of an operand. -/
def wrap (x : ℤ) : BitVec 32 := BitVec.ofInt 32 x

def and (x y : ℤ) : ℤ := (wrap x &&& wrap y).toInt

def or (x y : ℤ) : ℤ := (wrap x ||| wrap y).toInt

def xor (x y : ℤ) : ℤ := (wrap x ^^^ wrap y).toInt

/-- The shift count is the low five bits of the right operand. -/
def count (c : ℤ) : ℕ := (c % 32).toNat

def shl (x c : ℤ) : ℤ := (wrap x <<< count c).toInt

/-- The sign-propagating right shift. -/
def shr (x c : ℤ) : ℤ := ((wrap x).sshiftRight (count c)).toInt

theorem wrap_natCast (a : ℕ) : wrap a = BitVec.ofNat 32 a := by
  simp [wrap]

theorem toInt_ofNat {a : ℕ} (h : a < 2 ^ 31) : (BitVec.ofNat 32 a).toInt = a := by
  rw [BitVec.toInt_eq_toNat_of_lt] <;> simp only [BitVec.toNat_ofNat] <;> omega

/-- Every result is a signed 32-bit number. -/
theorem toInt_range (b : BitVec 32) : -2 ^ 31 ≤ b.toInt ∧ b.toInt < 2 ^ 31 := by
  have h := @BitVec.le_toInt 32 b
  have h' := @BitVec.toInt_lt 32 b
  norm_num at h h' ⊢
  exact ⟨h, h'⟩

/-- The parity of a result is its lowest bit. -/
theorem toInt_emod_two (b : BitVec 32) : b.toInt % 2 = if b.getLsbD 0 then 1 else 0 := by
  have hbit : b.getLsbD 0 = decide (b.toNat % 2 = 1) := by
    rw [BitVec.getLsbD, Nat.testBit_zero]
  have hcond := BitVec.toInt_eq_toNat_cond b
  rw [hbit]
  split_ifs at hcond ⊢ with h <;> simp_all <;> omega

theorem count_natCast {c : ℕ} (h : c < 32) : count c = c := by
  unfold count
  omega

theorem and_natCast {a b : ℕ} (ha : a < 2 ^ 31) : and a b = (a &&& b : ℕ) := by
  have hlt : a &&& b < 2 ^ 31 := Nat.lt_of_le_of_lt Nat.and_le_left ha
  rw [and, wrap_natCast, wrap_natCast, ← BitVec.ofNat_and, toInt_ofNat hlt]

theorem or_natCast {a b : ℕ} (ha : a < 2 ^ 31) (hb : b < 2 ^ 31) :
    or a b = (a ||| b : ℕ) := by
  rw [or, wrap_natCast, wrap_natCast, ← BitVec.ofNat_or, toInt_ofNat (Nat.or_lt_two_pow ha hb)]

theorem xor_natCast {a b : ℕ} (ha : a < 2 ^ 31) (hb : b < 2 ^ 31) :
    xor a b = (a ^^^ b : ℕ) := by
  rw [xor, wrap_natCast, wrap_natCast, ← BitVec.ofNat_xor, toInt_ofNat (Nat.xor_lt_two_pow ha hb)]

theorem shl_natCast {a c : ℕ} (hc : c < 32) (h : a * 2 ^ c < 2 ^ 31) :
    shl a c = (a * 2 ^ c : ℕ) := by
  have he : BitVec.ofNat 32 a <<< c = BitVec.ofNat 32 (a * 2 ^ c) := by
    apply BitVec.eq_of_toNat_eq
    simp [BitVec.toNat_shiftLeft, Nat.shiftLeft_eq]
  rw [shl, wrap_natCast, count_natCast hc, he, toInt_ofNat h]

theorem shr_natCast {a c : ℕ} (ha : a < 2 ^ 31) (hc : c < 32) :
    shr a c = (a / 2 ^ c : ℕ) := by
  rw [shr, wrap_natCast, count_natCast hc]
  have hle : a / 2 ^ c ≤ a := Nat.div_le_self a (2 ^ c)
  have ht : (BitVec.ofNat 32 a).toInt = a := toInt_ofNat ha
  rw [BitVec.toInt_sshiftRight, ht]
  simp [Int.shiftRight_eq_div_pow]

/-- Bitwise operators work on the high and the low block of bits separately. -/
theorem xor_block {m r s : ℕ} (a b : ℕ) (hr : r < 2 ^ m) (hs : s < 2 ^ m) :
    (2 ^ m * a + r) ^^^ (2 ^ m * b + s) = 2 ^ m * (a ^^^ b) + (r ^^^ s) := by
  apply Nat.eq_of_testBit_eq
  intro i
  rw [Nat.testBit_xor, Nat.testBit_two_pow_mul_add a hr, Nat.testBit_two_pow_mul_add b hs,
    Nat.testBit_two_pow_mul_add _ (Nat.xor_lt_two_pow hr hs)]
  split_ifs <;> simp

theorem or_block {m r s : ℕ} (a b : ℕ) (hr : r < 2 ^ m) (hs : s < 2 ^ m) :
    (2 ^ m * a + r) ||| (2 ^ m * b + s) = 2 ^ m * (a ||| b) + (r ||| s) := by
  apply Nat.eq_of_testBit_eq
  intro i
  rw [Nat.testBit_or, Nat.testBit_two_pow_mul_add a hr, Nat.testBit_two_pow_mul_add b hs,
    Nat.testBit_two_pow_mul_add _ (Nat.or_lt_two_pow hr hs)]
  split_ifs <;> simp

end Signed32
