import Mathlib.Tactic
import Mathlib.Data.Nat.Bitwise

/-!
# In-order numbering of perfect binary trees

A node of a perfect binary tree is addressed by its level `k` above the leaves
and its position `j` in that level, counted from the left. Leaf `i` lies below
node `(k, j)` exactly when `i / 2 ^ k = j`, so an ancestor is a quotient and no
tree has to be walked. `index` is the place of a node in the in-order array.
-/
namespace InOrder

/-- Place of the `j`-th node of level `k` in the in-order array. -/
def index (k j : ℕ) : ℕ := 2 ^ (k + 1) * j + (2 ^ k - 1)

/-- Number of nodes of the perfect tree of depth `d`. -/
def size (d : ℕ) : ℕ := 2 ^ (d + 1) - 1

@[simp] theorem index_zero (j : ℕ) : index 0 j = 2 * j := by simp [index]

theorem index_add_one (k j : ℕ) : index k j + 1 = 2 ^ k * (2 * j + 1) := by
  have h := Nat.two_pow_pos k
  have he : 2 ^ (k + 1) * j = 2 ^ k * (2 * j) := by rw [pow_succ]; ring
  rw [index, Nat.mul_add, mul_one, he]
  omega

theorem size_add_one (d : ℕ) : size d + 1 = 2 ^ (d + 1) := by
  have h := Nat.two_pow_pos (d + 1)
  unfold size
  omega

theorem size_succ (d : ℕ) : size (d + 1) = 2 * size d + 1 := by
  have h := size_add_one d
  have h' := size_add_one (d + 1)
  rw [pow_succ] at h'
  omega

theorem size_pos (d : ℕ) : 0 < size d := by
  have h := size_add_one d
  have hd := Nat.pow_lt_pow_right (a := 2) (by omega) (show 0 < d + 1 by omega)
  omega

theorem size_strictMono : StrictMono size := by
  intro a b h
  have ha := size_add_one a
  have hb := size_add_one b
  have hp := Nat.pow_lt_pow_right (a := 2) (by omega) (show a + 1 < b + 1 by omega)
  omega

theorem size_inj {a b : ℕ} (h : size a = size b) : a = b := size_strictMono.injective h

/-- The middle of the array is the root of the tree of that depth. -/
theorem index_root (d : ℕ) : index d 0 = 2 ^ d - 1 := by simp [index]

theorem odd_two_pow_mul_inj {k k' a a' : ℕ}
    (h : 2 ^ k * (2 * a + 1) = 2 ^ k' * (2 * a' + 1)) : k = k' ∧ a = a' := by
  induction k generalizing k' with
  | zero =>
    cases k' with
    | zero => simp only [pow_zero, one_mul] at h; omega
    | succ k' =>
      exfalso
      have e : 2 ^ (k' + 1) * (2 * a' + 1) = 2 * (2 ^ k' * (2 * a' + 1)) := by ring
      rw [e, pow_zero] at h
      omega
  | succ k ih =>
    cases k' with
    | zero =>
      exfalso
      have e : 2 ^ (k + 1) * (2 * a + 1) = 2 * (2 ^ k * (2 * a + 1)) := by ring
      rw [e, pow_zero] at h
      omega
    | succ k' =>
      have e : ∀ m b, 2 ^ (m + 1) * (2 * b + 1) = 2 * (2 ^ m * (2 * b + 1)) := by
        intro m b; ring
      rw [e, e] at h
      have hh := @ih k' (by omega)
      exact ⟨by omega, hh.2⟩

theorem index_inj {k j k' j' : ℕ} (h : index k j = index k' j') : k = k' ∧ j = j' := by
  apply odd_two_pow_mul_inj
  rw [← index_add_one, ← index_add_one, h]

theorem index_eq_iff {k j k' j' : ℕ} : index k j = index k' j' ↔ k = k' ∧ j = j' :=
  ⟨index_inj, fun ⟨hk, hj⟩ => by rw [hk, hj]⟩

/-- Every place of the array is a node of some level. -/
theorem exists_index (n : ℕ) : ∃ k j, n = index k j := by
  induction n using Nat.strong_induction_on with
  | h n ih =>
    rcases Nat.even_or_odd' n with ⟨m, rfl | rfl⟩
    · exact ⟨0, m, by simp⟩
    · obtain ⟨k, j, hm⟩ := ih m (by omega)
      refine ⟨k + 1, j, ?_⟩
      have h := index_add_one k j
      have h' := index_add_one (k + 1) j
      have e : 2 ^ (k + 1) * (2 * j + 1) = 2 * (2 ^ k * (2 * j + 1)) := by ring
      omega

/-- A node lies in the tree of depth `d` when its level exists there and its
position lies in that level. -/
theorem index_lt_size {d k j : ℕ} : index k j < size d ↔ k ≤ d ∧ j < 2 ^ (d - k) := by
  have hi := index_add_one k j
  have hs := size_add_one d
  constructor
  · intro h
    have hlt : 2 ^ k * (2 * j + 1) < 2 ^ (d + 1) := by omega
    have hk : k ≤ d := by
      by_contra hk
      have hp := Nat.pow_le_pow_right (n := 2) (by omega) (show d + 1 ≤ k by omega)
      have hm := Nat.le_mul_of_pos_right (2 ^ k) (show 0 < 2 * j + 1 by omega)
      omega
    refine ⟨hk, ?_⟩
    have e : 2 ^ (d + 1) = 2 ^ k * (2 * 2 ^ (d - k)) := by
      rw [← pow_succ', ← pow_add]; congr 1; omega
    rw [e] at hlt
    have := Nat.lt_of_mul_lt_mul_left hlt
    omega
  · rintro ⟨hk, hj⟩
    have e : 2 ^ (d + 1) = 2 ^ k * (2 * 2 ^ (d - k)) := by
      rw [← pow_succ', ← pow_add]; congr 1; omega
    have := Nat.mul_lt_mul_of_pos_left (show 2 * j + 1 < 2 * 2 ^ (d - k) by omega)
      (Nat.two_pow_pos k)
    omega

theorem leaf_lt_size {d i : ℕ} : index 0 i < size d ↔ i < 2 ^ d := by
  rw [index_lt_size]
  simp

/-- Leaves are the even places. -/
theorem index_even_iff {k j : ℕ} : index k j % 2 = 0 ↔ k = 0 := by
  cases k with
  | zero => simp
  | succ k =>
    have h := index_add_one (k + 1) j
    have e : 2 ^ (k + 1) * (2 * j + 1) = 2 * (2 ^ k * (2 * j + 1)) := by ring
    constructor <;> intro h' <;> omega

theorem div_two_pow_succ (i k : ℕ) : i / 2 ^ (k + 1) = i / 2 ^ k / 2 := by
  rw [pow_succ, Nat.div_div_eq_div_mul]

theorem div_two_pow_add (i a b : ℕ) : i / 2 ^ a / 2 ^ b = i / 2 ^ (a + b) := by
  rw [Nat.div_div_eq_div_mul, pow_add]

theorem div_two_pow_sub {i k m : ℕ} (h : k ≤ m) : i / 2 ^ k / 2 ^ (m - k) = i / 2 ^ m := by
  rw [div_two_pow_add, Nat.add_sub_cancel' h]

/-- Every leaf of the tree lies below its root. -/
theorem div_two_pow_eq_zero {d i : ℕ} (h : i < 2 ^ d) : i / 2 ^ d = 0 := Nat.div_eq_of_lt h

theorem div_two_pow_lt {d k i : ℕ} (hk : k ≤ d) (h : i < 2 ^ d) : i / 2 ^ k < 2 ^ (d - k) := by
  rw [Nat.div_lt_iff_lt_mul (Nat.two_pow_pos k), ← pow_add]
  rwa [Nat.sub_add_cancel hk]

/-- The ancestor of leaf `i` at level `k` of the tree of depth `d` exists. -/
theorem ancestor_lt_size {d k i : ℕ} (hk : k ≤ d) (h : i < 2 ^ d) :
    index k (i / 2 ^ k) < size d :=
  index_lt_size.mpr ⟨hk, div_two_pow_lt hk h⟩

/-- A node two levels of which agree agrees above them. -/
theorem ancestor_of_ancestor {i i' k k' : ℕ} (hk : k ≤ k') (h : i / 2 ^ k = i' / 2 ^ k) :
    i / 2 ^ k' = i' / 2 ^ k' := by
  obtain ⟨m, rfl⟩ := Nat.exists_eq_add_of_le hk
  rw [← div_two_pow_add, ← div_two_pow_add, h]

/-- A node is in order before a proper ancestor exactly when it lies below the
ancestor's left child. -/
theorem index_lt_ancestor {k m j : ℕ} (hk : k < m) :
    index k j < index m (j / 2 ^ (m - k)) ↔ j / 2 ^ (m - k - 1) % 2 = 0 := by
  obtain ⟨m, rfl⟩ : ∃ l, m = k + l + 1 := ⟨m - k - 1, by omega⟩
  have e1 : k + m + 1 - k = m + 1 := by omega
  have e2 : k + m + 1 - k - 1 = m := by omega
  rw [e1, Nat.add_sub_cancel]
  set c := j / 2 ^ m with hc
  have hq : j / 2 ^ (m + 1) = c / 2 := div_two_pow_succ j m
  have hlo := Nat.div_mul_le_self j (2 ^ m)
  have hhi := Nat.lt_div_mul_add (a := j) (Nat.two_pow_pos m)
  rw [← hc] at hlo hhi
  have h1 := index_add_one k j
  have h2 := index_add_one (k + m + 1) (c / 2)
  have h3 : 2 ^ (k + m + 1) * (2 * (c / 2) + 1) = 2 ^ k * (2 * (2 ^ m * (2 * (c / 2) + 1))) := by
    rw [show k + m + 1 = k + (m + 1) by omega, pow_add, pow_succ]; ring
  rw [hq]
  constructor
  · intro hlt
    by_contra hodd
    have hc1 : c = 2 * (c / 2) + 1 := by omega
    have hle : 2 ^ m * (2 * (c / 2) + 1) ≤ j := by rw [← hc1, Nat.mul_comm]; exact hlo
    have := Nat.mul_le_mul_left (2 ^ k) (show 2 * (2 ^ m * (2 * (c / 2) + 1)) ≤ 2 * j + 1 by omega)
    omega
  · intro heven
    have hc1 : c + 1 = 2 * (c / 2) + 1 := by omega
    have hle : j + 1 ≤ 2 ^ m * (2 * (c / 2) + 1) := by
      rw [← hc1, Nat.mul_comm, Nat.add_mul, one_mul]; omega
    have := Nat.mul_lt_mul_of_pos_left
      (show 2 * j + 1 < 2 * (2 ^ m * (2 * (c / 2) + 1)) by omega) (Nat.two_pow_pos k)
    omega

/-! ## Subtrees -/

/-- Node `(k', j')` lies in the subtree of node `(k, j)`. -/
def Below (k' j' k j : ℕ) : Prop := k' ≤ k ∧ j' / 2 ^ (k - k') = j

@[simp] theorem below_refl (k j : ℕ) : Below k j k j := ⟨le_rfl, by simp⟩

@[simp] theorem below_leaf {i k j : ℕ} : Below 0 i k j ↔ i / 2 ^ k = j := by
  simp [Below]

theorem Below.trans {k₁ j₁ k₂ j₂ k₃ j₃ : ℕ} (h : Below k₁ j₁ k₂ j₂) (h' : Below k₂ j₂ k₃ j₃) :
    Below k₁ j₁ k₃ j₃ := by
  obtain ⟨hk, rfl⟩ := h
  obtain ⟨hk', rfl⟩ := h'
  refine ⟨hk.trans hk', ?_⟩
  rw [div_two_pow_add]
  congr 2
  omega

/-- The leaves below a node are below its ancestors. -/
theorem Below.leaf {i k j k' j' : ℕ} (h : Below k' j' k j) (hi : i / 2 ^ k' = j') :
    i / 2 ^ k = j :=
  below_leaf.mp ((below_leaf.mpr hi).trans h)

/-- Of two nodes above one leaf the lower is below the higher. -/
theorem below_of_leaf {i k l : ℕ} (hk : l ≤ k) : Below l (i / 2 ^ l) k (i / 2 ^ k) := by
  refine ⟨hk, ?_⟩
  rw [div_two_pow_add, Nat.add_sub_cancel' hk]

theorem exists_leaf (k j : ℕ) : ∃ i, i / 2 ^ k = j :=
  ⟨2 ^ k * j, Nat.mul_div_cancel_left j (Nat.two_pow_pos k)⟩

theorem below_left (k j : ℕ) : Below k (2 * j) (k + 1) j := ⟨by omega, by simp⟩

theorem below_right (k j : ℕ) : Below k (2 * j + 1) (k + 1) j := ⟨by omega, by simp; omega⟩

/-- A subtree is its root and the subtrees of the two children. -/
theorem below_succ {k' j' k j : ℕ} : Below k' j' (k + 1) j ↔
    (k' = k + 1 ∧ j' = j) ∨ Below k' j' k (2 * j) ∨ Below k' j' k (2 * j + 1) := by
  constructor
  · rintro ⟨hk, hj⟩
    rcases Nat.eq_or_lt_of_le hk with rfl | hlt
    · exact .inl ⟨rfl, by simpa using hj⟩
    · rw [show k + 1 - k' = k - k' + 1 by omega, div_two_pow_succ] at hj
      rcases Nat.mod_two_eq_zero_or_one (j' / 2 ^ (k - k')) with h | h
      · exact .inr (.inl ⟨by omega, by omega⟩)
      · exact .inr (.inr ⟨by omega, by omega⟩)
  · rintro (⟨rfl, rfl⟩ | h | h)
    · exact below_refl _ _
    · exact h.trans (below_left k j)
    · exact h.trans (below_right k j)

theorem below_zero {k' j' j : ℕ} : Below k' j' 0 j ↔ k' = 0 ∧ j' = j := by
  constructor
  · rintro ⟨hk, hj⟩
    obtain rfl : k' = 0 := by omega
    exact ⟨rfl, by simpa using hj⟩
  · rintro ⟨rfl, rfl⟩
    exact below_refl _ _

/-- Subtrees of one level are disjoint. -/
theorem Below.unique {k' j' k j j₂ : ℕ} (h : Below k' j' k j) (h₂ : Below k' j' k j₂) : j = j₂ :=
  h.2.symm.trans h₂.2

/-- A node above a node of a subtree is in the subtree or above its root. -/
theorem Below.chain {k₁ j₁ k₂ j₂ k₃ j₃ : ℕ} (h : Below k₁ j₁ k₂ j₂) (h' : Below k₁ j₁ k₃ j₃)
    (hk : k₂ ≤ k₃) : Below k₂ j₂ k₃ j₃ := by
  obtain ⟨h1, rfl⟩ := h
  obtain ⟨h2, rfl⟩ := h'
  refine ⟨hk, ?_⟩
  rw [div_two_pow_add]
  congr 2
  omega

theorem Below.index_lt_size {k' j' k j d : ℕ} (h : Below k' j' k j) (hlt : index k j < size d) :
    index k' j' < size d := by
  obtain ⟨hk, rfl⟩ := h
  obtain ⟨hkd, hj⟩ := InOrder.index_lt_size.mp hlt
  refine InOrder.index_lt_size.mpr ⟨by omega, ?_⟩
  rw [Nat.div_lt_iff_lt_mul (Nat.two_pow_pos _), ← pow_add] at hj
  convert hj using 2
  omega

end InOrder
