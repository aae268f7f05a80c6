import WebcryptoMls.Signed32
import Mathlib.Data.Int.Bitwise

/-!
# Checked 32-bit operators

The operators of `Signed32` coerce their operands and wrap. A checked operator
computes on unbounded integers instead and overflows where an operand, a shift
count or the exact result does not fit, so a program that does the same with
either kind of operator never leaves the signed 32-bit range. Its own errors
stay apart from an overflow.
-/
namespace Signed32

/-- How a checked program fails. -/
inductive Fault (ε : Type) where
  | overflow
  | thrown (e : ε)
  deriving DecidableEq

def InRange (x : ℤ) : Prop := -2 ^ 31 ≤ x ∧ x < 2 ^ 31

instance (x : ℤ) : Decidable (InRange x) := inferInstanceAs (Decidable (_ ∧ _))

section
variable {ε α β : Type}

/-- The exact result of an operation, where it and the operands fit. -/
def checked (x y exact : ℤ) : Except (Fault ε) ℤ :=
  if InRange x ∧ InRange y ∧ InRange exact then .ok exact else .error .overflow

def checkedAnd (x y : ℤ) : Except (Fault ε) ℤ := checked x y (Int.land x y)

def checkedOr (x y : ℤ) : Except (Fault ε) ℤ := checked x y (Int.lor x y)

def checkedXor (x y : ℤ) : Except (Fault ε) ℤ := checked x y (Int.xor x y)

/-- A shift count that is not its own low five bits overflows too. -/
def checkedShl (x c : ℤ) : Except (Fault ε) ℤ :=
  if 0 ≤ c ∧ c < 32 then checked x c (x * 2 ^ c.toNat) else .error .overflow

def checkedShr (x c : ℤ) : Except (Fault ε) ℤ :=
  if 0 ≤ c ∧ c < 32 then checked x c (x / 2 ^ c.toNat) else .error .overflow

/-- A program without checks, among checked ones. -/
def lift (x : Except ε α) : Except (Fault ε) α := x.mapError .thrown

@[simp] theorem lift_ok (a : α) : lift (.ok a : Except ε α) = .ok a := rfl

@[simp] theorem lift_pure (a : α) : lift (pure a : Except ε α) = .ok a := rfl

@[simp] theorem lift_throw (e : ε) : lift (throw e : Except ε α) = .error (.thrown e) := rfl

theorem lift_bind (x : Except ε α) (f : α → Except ε β) :
    lift (x >>= f) = lift x >>= fun a => lift (f a) := by
  cases x <;> rfl

/-- Sequencing agrees where the rest agrees on what the first step returns. -/
theorem bind_lift {x : Except ε α} {f : α → Except ε β} {g : α → Except (Fault ε) β}
    (h : ∀ a, x = .ok a → g a = lift (f a)) : lift x >>= g = lift (x >>= f) := by
  cases x with
  | error e => rfl
  | ok a => exact h a rfl

@[simp] theorem ok_bind (a : α) (f : α → Except (Fault ε) β) :
    ((Except.ok a : Except (Fault ε) α) >>= f) = f a := rfl

@[simp] theorem error_bind (e : Fault ε) (f : α → Except (Fault ε) β) :
    ((Except.error e : Except (Fault ε) α) >>= f) = .error e := rfl

/-- A loop over a list of checked rounds. -/
theorem mapM_lift {f : α → Except ε β} {g : α → Except (Fault ε) β} {l : List α}
    (h : ∀ a ∈ l, g a = lift (f a)) : l.mapM g = lift (l.mapM f) := by
  induction l with
  | nil => rfl
  | cons a l ih =>
    rw [List.forall_mem_cons] at h
    simp only [List.mapM_cons, lift_bind, h.1, ih h.2]
    rfl

theorem inRange_natCast {a : ℕ} (h : a < 2 ^ 31) : InRange a := by
  unfold InRange
  omega

theorem checked_natCast {a b c : ℕ} (ha : a < 2 ^ 31) (hb : b < 2 ^ 31) (hc : c < 2 ^ 31) :
    (checked a b c : Except (Fault ε) ℤ) = .ok c := by
  rw [checked, if_pos ⟨inRange_natCast ha, inRange_natCast hb, inRange_natCast hc⟩]

theorem checkedAnd_natCast {a b : ℕ} (ha : a < 2 ^ 31) (hb : b < 2 ^ 31) :
    (checkedAnd a b : Except (Fault ε) ℤ) = .ok (and a b) := by
  have hlt : a &&& b < 2 ^ 31 := Nat.lt_of_le_of_lt Nat.and_le_left ha
  rw [and_natCast ha]
  exact checked_natCast ha hb hlt

theorem checkedOr_natCast {a b : ℕ} (ha : a < 2 ^ 31) (hb : b < 2 ^ 31) :
    (checkedOr a b : Except (Fault ε) ℤ) = .ok (or a b) := by
  rw [or_natCast ha hb]
  exact checked_natCast ha hb (Nat.or_lt_two_pow ha hb)

theorem checkedXor_natCast {a b : ℕ} (ha : a < 2 ^ 31) (hb : b < 2 ^ 31) :
    (checkedXor a b : Except (Fault ε) ℤ) = .ok (xor a b) := by
  rw [xor_natCast ha hb]
  exact checked_natCast ha hb (Nat.xor_lt_two_pow ha hb)

theorem checkedShl_natCast {a c : ℕ} (hc : c < 32) (h : a * 2 ^ c < 2 ^ 31) :
    (checkedShl a c : Except (Fault ε) ℤ) = .ok (shl a c) := by
  have ha : a < 2 ^ 31 := (Nat.le_mul_of_pos_right a (Nat.two_pow_pos c)).trans_lt h
  have he : (a : ℤ) * 2 ^ (c : ℤ).toNat = (a * 2 ^ c : ℕ) := by simp
  rw [checkedShl, if_pos (by omega), he, checked_natCast ha (by omega) h, shl_natCast hc h]

theorem checkedShr_natCast {a c : ℕ} (ha : a < 2 ^ 31) (hc : c < 32) :
    (checkedShr a c : Except (Fault ε) ℤ) = .ok (shr a c) := by
  have hlt : a / 2 ^ c < 2 ^ 31 := (Nat.div_le_self a _).trans_lt ha
  have he : (a : ℤ) / 2 ^ (c : ℤ).toNat = (a / 2 ^ c : ℕ) := by simp
  rw [checkedShr, if_pos (by omega), he, checked_natCast ha (by omega) hlt, shr_natCast ha hc]

end

end Signed32
