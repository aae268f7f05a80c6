import Mathlib.Data.Int.Log
import Mathlib.Tactic

/-!
# Binary64 arithmetic

Arithmetic on finite binary64 numbers, each operation rounding the exact result to
53 significant bits, to nearest and to even. A result that needs no more bits is not
rounded; so it is with integers below `2 ^ 53` and with their quotients by powers of
two. Exponents are bounded from below only: the numbers here are far from overflow.
-/
namespace Binary64

/-- The integer nearest to a number, the even one of two. -/
def roundEven (q : ℚ) : ℤ :=
  let fraction := q - ⌊q⌋
  if fraction < 1 / 2 then ⌊q⌋
  else if 1 / 2 < fraction then ⌊q⌋ + 1
  else if ⌊q⌋ % 2 = 0 then ⌊q⌋ else ⌊q⌋ + 1

/-- The exponent of the last place of a number. -/
def lastPlace (q : ℚ) : ℤ := max (-1022) (Int.log 2 |q|) - 52

def round (q : ℚ) : ℚ := roundEven (q / 2 ^ lastPlace q) * 2 ^ lastPlace q

def add (a b : ℚ) : ℚ := round (a + b)

def sub (a b : ℚ) : ℚ := round (a - b)

def mul (a b : ℚ) : ℚ := round (a * b)

def div (a b : ℚ) : ℚ := round (a / b)

def pow (a : ℚ) (n : ℕ) : ℚ := round (a ^ n)

@[simp] theorem roundEven_intCast (n : ℤ) : roundEven n = n := by
  simp [roundEven]

/-- A number of at most 53 bits is one already. -/
theorem round_mul_zpow {m e : ℤ} (hm : |m| < 2 ^ 53) (he : -1074 ≤ e) :
    round (m * 2 ^ e) = m * 2 ^ e := by
  rcases eq_or_ne m 0 with rfl | hne
  · have hzero : roundEven 0 = 0 := by simpa using roundEven_intCast 0
    simp [round, hzero]
  have hpos : (0 : ℚ) < |(m : ℚ) * 2 ^ e| :=
    abs_pos.mpr (mul_ne_zero (by exact_mod_cast hne) (zpow_ne_zero _ two_ne_zero))
  have hlog : Int.log 2 |(m : ℚ) * 2 ^ e| < 53 + e := by
    rw [← Int.lt_zpow_iff_log_lt one_lt_two hpos, abs_mul,
      abs_of_pos (zpow_pos two_pos e : (0 : ℚ) < 2 ^ e)]
    push_cast
    rw [zpow_add₀ two_ne_zero]
    have hcast : |(m : ℚ)| < 2 ^ (53 : ℤ) := by exact_mod_cast hm
    exact mul_lt_mul_of_pos_right hcast (zpow_pos two_pos e)
  have hplace : lastPlace (m * 2 ^ e) ≤ e := by
    unfold lastPlace
    omega
  obtain ⟨k, hk⟩ := Int.le.dest hplace
  unfold round
  -- Counted in last places it is an integer.
  have hint : (m : ℚ) * 2 ^ e / 2 ^ lastPlace (m * 2 ^ e) = ((m * 2 ^ k : ℤ) : ℚ) := by
    push_cast
    rw [mul_div_assoc, ← zpow_sub₀ two_ne_zero, ← zpow_natCast]
    congr 2
    omega
  rw [hint, roundEven_intCast]
  push_cast
  rw [mul_assoc, ← zpow_natCast, ← zpow_add₀ two_ne_zero]
  congr 2
  omega

theorem round_natCast {n : ℕ} (h : n < 2 ^ 53) : round n = n := by
  have hround := round_mul_zpow (m := n) (e := 0) (by rw [Nat.abs_cast]; exact_mod_cast h)
    (by norm_num)
  simpa using hround

theorem round_div_two_pow {n k : ℕ} (hn : n < 2 ^ 53) (hk : k ≤ 1074) :
    round ((n : ℚ) / 2 ^ k) = n / 2 ^ k := by
  have hround := round_mul_zpow (m := n) (e := -k) (by rw [Nat.abs_cast]; exact_mod_cast hn)
    (by omega)
  simpa [div_eq_mul_inv] using hround

/-! ## Exact results -/

theorem add_natCast {a b : ℕ} (h : a + b < 2 ^ 53) : add a b = (a + b : ℕ) := by
  have hround := round_natCast h
  push_cast at hround ⊢
  exact hround

theorem mul_natCast {a b : ℕ} (h : a * b < 2 ^ 53) : mul a b = (a * b : ℕ) := by
  have hround := round_natCast h
  push_cast at hround ⊢
  exact hround

theorem sub_natCast {a b : ℕ} (hle : b ≤ a) (h : a < 2 ^ 53) : sub a b = (a - b : ℕ) := by
  have hround := round_natCast (n := a - b) (by omega)
  rw [Nat.cast_sub hle] at hround ⊢
  exact hround

theorem pow_two_natCast {k : ℕ} (h : k < 53) : pow 2 k = (2 ^ k : ℕ) := by
  have hround := round_natCast (n := 2 ^ k) (Nat.pow_lt_pow_right one_lt_two h)
  push_cast at hround ⊢
  exact hround

theorem div_two_pow {n k : ℕ} (hn : n < 2 ^ 53) (hk : k < 53) :
    div n (2 ^ k : ℕ) = (n : ℚ) / (2 ^ k : ℕ) := by
  have hround := round_div_two_pow hn (by omega : k ≤ 1074)
  push_cast
  exact hround

end Binary64
