import WebcryptoMls.InOrder
import WebcryptoMls.Signed32
import WebcryptoMls.MlsError

/-!
# Tree mathematics

Node indices are numbers of the source language, so they are integers here (leaf
indices are naturals) and the bit operators coerce them to signed 32 bits. `level` refuses every index at
or above `2 ^ 31`. At width `2 ^ 31` the root the shifts compute is negative and
no walk ever meets it. Below that size the functions are the in-order arithmetic
of `InOrder`, which the second half of this module proves.
-/
namespace WebcryptoMls

/-- `while (x >> k > 0) k++`; a count past 31 is never reached. -/
def log2Loop (x : ℤ) : ℕ → ℤ → ℤ
  | 0, k => k
  | fuel + 1, k => if Signed32.shr x k > 0 then log2Loop x fuel (k + 1) else k

def log2 (x : ℤ) : ℤ := if x = 0 then 0 else log2Loop x 32 0 - 1

def assertValidNodeIndex (nodeIndex : ℤ) : Except MlsError Unit :=
  if nodeIndex < 0 ∨ nodeIndex ≥ 0x80000000 then
    throw (validationError s!"node index out of range: {nodeIndex}")
  else pure ()

/-- `while (((nodeIndex >> k) & 0x01) === 1) k++`. -/
def levelLoop (nodeIndex : ℤ) : ℕ → ℤ → ℤ
  | 0, k => k
  | fuel + 1, k =>
    if Signed32.and (Signed32.shr nodeIndex k) 1 = 1 then levelLoop nodeIndex fuel (k + 1) else k

def level (nodeIndex : ℤ) : Except MlsError ℤ := do
  assertValidNodeIndex nodeIndex
  if Signed32.and nodeIndex 1 = 0 then pure 0 else pure (levelLoop nodeIndex 32 0)

def isLeaf (nodeIndex : ℤ) : Bool := nodeIndex % 2 == 0

def leafToNodeIndex (leafIndex : ℕ) : ℤ := leafIndex * 2

def nodeToLeafIndex (nodeIndex : ℤ) : Except MlsError ℕ :=
  if !isLeaf nodeIndex then
    throw (validationError s!"node index {nodeIndex} is not a leaf node")
  else pure (nodeIndex / 2).toNat

/-- Half of an odd number where the node count is even, which no full tree's is. -/
def leafWidth (nodeWidth : ℕ) : ℚ := if nodeWidth = 0 then 0 else (nodeWidth - 1) / 2 + 1

/-- Whole for the halves that `leafWidth` returns. -/
def nodeWidth (leafWidth : ℚ) : ℕ :=
  if leafWidth = 0 then 0 else (2 * (leafWidth - 1) + 1).floor.toNat

def rootFromNodeWidth (nodeWidth : ℕ) : ℤ := Signed32.shl 1 (log2 nodeWidth) - 1

def root (leafWidth : ℚ) : ℤ :=
  let w := nodeWidth leafWidth
  rootFromNodeWidth w

def left (nodeIndex : ℤ) : Except MlsError ℤ := do
  let k ← level nodeIndex
  if k = 0 then throw (internalError "leaf node has no children")
  pure (Signed32.xor nodeIndex (Signed32.shl 1 (k - 1)))

def right (nodeIndex : ℤ) : Except MlsError ℤ := do
  let k ← level nodeIndex
  if k = 0 then throw (internalError "leaf node has no children")
  pure (Signed32.xor nodeIndex (Signed32.shl 3 (k - 1)))

def parent (nodeIndex : ℤ) (leafWidth : ℚ) : Except MlsError ℤ := do
  let w := nodeWidth leafWidth
  if nodeIndex < 0 ∨ nodeIndex ≥ w then
    throw (validationError s!"node index {nodeIndex} out of range for tree width {w}")
  if nodeIndex = root leafWidth then throw (internalError "root node has no parent")
  let k ← level nodeIndex
  let b := Signed32.and (Signed32.shr nodeIndex (k + 1)) 1
  pure (Signed32.xor (Signed32.or nodeIndex (Signed32.shl 1 k)) (Signed32.shl b (k + 1)))

def sibling (x : ℤ) (leafWidth : ℚ) : Except MlsError ℤ := do
  let p ← parent x leafWidth
  if x < p then right p else left p

/-- `while (nodeIndex !== r) { nodeIndex = parent(nodeIndex); d.push(nodeIndex) }`.
Each round climbs one level and `level` refuses the 32nd, so the budget of
rounds is never what ends the walk. -/
def directPathLoop (leafWidth : ℚ) (r : ℤ) : ℕ → ℤ → Except MlsError (List ℤ)
  | 0, _ => throw (nonTermination "directPath")
  | fuel + 1, nodeIndex =>
    if nodeIndex = r then pure []
    else do
      let p ← parent nodeIndex leafWidth
      let d ← directPathLoop leafWidth r fuel p
      pure (p :: d)

def directPath (nodeIndex : ℤ) (leafWidth : ℚ) : Except MlsError (List ℤ) := do
  let w := nodeWidth leafWidth
  if nodeIndex < 0 ∨ nodeIndex ≥ w then
    throw (validationError s!"node index {nodeIndex} out of range for tree width {w}")
  directPathLoop leafWidth (root leafWidth) 33 nodeIndex

def copath (nodeIndex : ℤ) (leafWidth : ℚ) : Except MlsError (List ℤ) := do
  if nodeIndex = root leafWidth then pure []
  else
    let d ← directPath nodeIndex leafWidth
    ((nodeIndex :: d).dropLast).mapM fun y => sibling y leafWidth

def isAncestor (childNodeIndex ancestor : ℤ) (nodeWidth : ℕ) : Except MlsError Bool := do
  let d ← directPath childNodeIndex (leafWidth nodeWidth)
  pure (d.contains ancestor)

/-- `while (!isLeaf(n)) n = child(n)`, the walk to one end of a subtree. -/
def leafRangeLoop (child : ℤ → Except MlsError ℤ) :
    ℕ → ℤ → Except MlsError ℤ
  | 0, _ => throw (nonTermination "leafRange")
  | fuel + 1, n =>
    if isLeaf n then pure n
    else do
      let c ← child n
      leafRangeLoop child fuel c

/-- The first and the last leaf below a node, whether blank or not. -/
def leafRange (nodeIndex : ℤ) : Except MlsError (ℕ × ℕ) := do
  let lo ← leafRangeLoop left 33 nodeIndex
  let hi ← leafRangeLoop right 33 nodeIndex
  let first ← nodeToLeafIndex lo
  let last ← nodeToLeafIndex hi
  pure (first, last)

/-! ## In-order arithmetic -/

open InOrder (index size)

/-- A node of the tree by its level and its position in the level. -/
def coord (k j : ℕ) : ℤ := index k j

theorem coord_inj {k j k' j' : ℕ} : coord k j = coord k' j' ↔ k = k' ∧ j = j' := by
  rw [coord, coord, Nat.cast_inj, InOrder.index_eq_iff]

@[simp] theorem coord_nonneg (k j : ℕ) : 0 ≤ coord k j := Int.natCast_nonneg _

@[simp] theorem coord_toNat (k j : ℕ) : (coord k j).toNat = index k j := Int.toNat_natCast _

@[simp] theorem leafToNodeIndex_eq (i : ℕ) : leafToNodeIndex i = coord 0 i := by
  simp only [leafToNodeIndex, coord, InOrder.index_zero]
  push_cast
  ring

theorem coord_emod_two (k j : ℕ) : coord k j % 2 = 0 ↔ k = 0 := by
  rw [coord, ← InOrder.index_even_iff (k := k) (j := j)]
  omega

@[simp] theorem isLeaf_coord (k j : ℕ) : isLeaf (coord k j) = decide (k = 0) := by
  rw [isLeaf, beq_eq_decide, decide_eq_decide]
  exact coord_emod_two k j

@[simp] theorem nodeToLeafIndex_coord (i : ℕ) : nodeToLeafIndex (coord 0 i) = .ok i := by
  have h : (coord 0 i / 2).toNat = i := by
    rw [coord, InOrder.index_zero]
    omega
  simp [nodeToLeafIndex, h, pure, Except.pure]

@[simp] theorem nodeWidth_leafWidth (n : ℕ) : nodeWidth (leafWidth n) = n := by
  unfold nodeWidth leafWidth
  by_cases hn : n = 0
  · simp [hn]
  · have hpos : (1 : ℚ) ≤ n := by exact_mod_cast Nat.one_le_iff_ne_zero.mpr hn
    have hne : ((n : ℚ) - 1) / 2 + 1 ≠ 0 := by
      have : (0 : ℚ) < (n - 1) / 2 + 1 := by linarith
      exact this.ne'
    have heq : 2 * (((n : ℚ) - 1) / 2 + 1 - 1) + 1 = ((n : ℤ) : ℚ) := by
      push_cast
      ring
    rw [if_neg hn, if_neg hne, heq, Rat.floor_intCast, Int.toNat_natCast]

@[simp] theorem leafWidth_size (d : ℕ) : leafWidth (size d) = 2 ^ d := by
  have h : ((size d : ℕ) : ℚ) + 1 = 2 ^ (d + 1) := by exact_mod_cast InOrder.size_add_one d
  have hp := InOrder.size_pos d
  rw [leafWidth, if_neg (by omega), eq_sub_of_add_eq h, pow_succ]
  ring

@[simp] theorem nodeWidth_two_pow (d : ℕ) : nodeWidth (2 ^ d) = size d := by
  rw [← leafWidth_size, nodeWidth_leafWidth]

/-- The trees whose nodes the bit operators can address. -/
theorem size_lt_of_le {d : ℕ} (hd : d ≤ 30) : size d < 2 ^ 31 := by
  have h := InOrder.size_add_one d
  have hp := Nat.pow_le_pow_right (n := 2) (by omega) (show d + 1 ≤ 31 by omega)
  omega

theorem index_div_two (k j : ℕ) : index (k + 1) j / 2 = index k j := by
  have h := InOrder.index_add_one k j
  have h' := InOrder.index_add_one (k + 1) j
  have e : 2 ^ (k + 1) * (2 * j + 1) = 2 * (2 ^ k * (2 * j + 1)) := by ring
  omega

theorem index_div_two_pow (k m j : ℕ) : index (k + m) j / 2 ^ m = index k j := by
  induction m with
  | zero => simp
  | succ m ih =>
    rw [pow_succ', ← Nat.div_div_eq_div_mul, ← Nat.add_assoc, index_div_two, ih]

theorem level_lt {k j : ℕ} (h : index k j < 2 ^ 31) : k < 32 := by
  have hi := InOrder.index_add_one k j
  have hm := Nat.le_mul_of_pos_right (2 ^ k) (show 0 < 2 * j + 1 by omega)
  by_contra hk
  have hp := Nat.pow_le_pow_right (n := 2) (by omega) (show 32 ≤ k by omega)
  omega

theorem levelLoop_coord {k j : ℕ} (h : index k j < 2 ^ 31) (fuel m : ℕ) (hm : m ≤ k)
    (hf : k < m + fuel) : levelLoop (coord k j) fuel m = k := by
  have hk := level_lt h
  induction fuel generalizing m with
  | zero => omega
  | succ fuel ih =>
    obtain ⟨r, rfl⟩ := Nat.exists_eq_add_of_le' hm
    have hs : Signed32.shr (coord (r + m) j) m = (index r j : ℕ) := by
      rw [coord, Signed32.shr_natCast h (by omega), index_div_two_pow]
    have hlt : index r j < 2 ^ 31 := by
      rw [← index_div_two_pow r m j]
      exact Nat.lt_of_le_of_lt (Nat.div_le_self _ _) h
    have ha : Signed32.and (index r j : ℕ) 1 = (index r j % 2 : ℕ) := by
      have := Signed32.and_natCast (b := 1) hlt
      rwa [Nat.and_one_is_mod] at this
    have he := InOrder.index_even_iff (k := r) (j := j)
    rw [levelLoop, hs, ha]
    by_cases hr : r = 0
    · rw [if_neg (by have := he.mpr hr; omega)]
      simp [hr]
    · rw [if_pos (by have := mt he.mp hr; omega)]
      have := ih (m + 1) (by omega) (by omega)
      exact_mod_cast this

@[simp] theorem assertValidNodeIndex_coord {k j : ℕ} (h : index k j < 2 ^ 31) :
    assertValidNodeIndex (coord k j) = .ok () := by
  rw [assertValidNodeIndex, if_neg]
  · rfl
  · rw [coord]
    omega

theorem level_coord {k j : ℕ} (h : index k j < 2 ^ 31) : level (coord k j) = .ok (k : ℤ) := by
  have ha : Signed32.and (coord k j) 1 = (index k j % 2 : ℕ) := by
    have := Signed32.and_natCast (b := 1) h
    rwa [Nat.and_one_is_mod] at this
  have hl := levelLoop_coord h 32 0 (by omega) (by have := level_lt h; omega)
  have he := InOrder.index_even_iff (k := k) (j := j)
  simp only [level, assertValidNodeIndex_coord h, ha, bind, Except.bind, pure, Except.pure]
  by_cases hk : k = 0
  · rw [if_pos (by exact_mod_cast he.mpr hk), hk]
    rfl
  · rw [if_neg (by exact_mod_cast mt he.mp hk)]
    exact congrArg Except.ok (by exact_mod_cast hl)

/-- An inner node's index in blocks: the bits above its children's level, then
a run of ones. -/
theorem index_succ_block (k j : ℕ) : index (k + 1) j = 2 ^ k * (4 * j + 1) + (2 ^ k - 1) := by
  have h := InOrder.index_add_one (k + 1) j
  have e1 : 2 ^ (k + 1) * (2 * j + 1) = 4 * (2 ^ k * j) + 2 * 2 ^ k := by ring
  have e2 : 2 ^ k * (4 * j + 1) = 4 * (2 ^ k * j) + 2 ^ k := by ring
  have hp := Nat.two_pow_pos k
  omega

theorem index_block (k j : ℕ) : index k j = 2 ^ k * (2 * j) + (2 ^ k - 1) := by
  have e : 2 ^ (k + 1) * j = 2 ^ k * (2 * j) := by ring
  rw [index, e]

theorem xor_one_block (j : ℕ) : (4 * j + 1) ^^^ 1 = 4 * j := by
  have h := Signed32.xor_block (m := 2) (r := 1) (s := 1) j 0 (by omega) (by omega)
  simpa using h

theorem xor_three_block (j : ℕ) : (4 * j + 1) ^^^ 3 = 4 * j + 2 := by
  have h := Signed32.xor_block (m := 2) (r := 1) (s := 3) j 0 (by omega) (by omega)
  simpa using h

theorem or_one_block (j : ℕ) : (2 * j) ||| 1 = 2 * j + 1 := by
  have h := Signed32.or_block (m := 1) (r := 0) (s := 1) j 0 (by omega) (by omega)
  simpa using h

/-- Setting the level bit and clearing the bit above it halves the position. -/
theorem xor_parity_block (j : ℕ) : (2 * j + 1) ^^^ (2 * (j % 2)) = 4 * (j / 2) + 1 := by
  have hj : j ^^^ (j % 2) = 2 * (j / 2) := by
    have h := Signed32.xor_block (m := 1) (r := j % 2) (s := j % 2) (j / 2) 0 (by omega) (by omega)
    simp only [pow_one, Nat.mul_zero, Nat.zero_add, Nat.xor_zero, Nat.xor_self, Nat.add_zero] at h
    rwa [Nat.div_add_mod] at h
  have h := Signed32.xor_block (m := 1) (r := 1) (s := 0) j (j % 2) (by omega) (by omega)
  simp only [pow_one, Nat.add_zero, Nat.xor_zero] at h
  rw [h, hj]
  ring

theorem two_pow_le_index (k j : ℕ) : 2 ^ k ≤ index k j + 1 := by
  have h := InOrder.index_add_one k j
  have := Nat.le_mul_of_pos_right (2 ^ k) (show 0 < 2 * j + 1 by omega)
  omega

theorem left_coord {k j : ℕ} (h : index (k + 1) j < 2 ^ 31) :
    left (coord (k + 1) j) = .ok (coord k (2 * j)) := by
  have hp := two_pow_le_index (k + 1) j
  have hk := Nat.two_pow_pos k
  have hs : Signed32.shl 1 ((k + 1 : ℕ) - 1) = (2 ^ k : ℕ) := by
    have hb : 1 * 2 ^ k < 2 ^ 31 := by rw [pow_succ] at hp; omega
    have := Signed32.shl_natCast (a := 1) (c := k) (by have := level_lt h; omega) hb
    rw [one_mul] at this
    rw [← this]
    push_cast
    ring_nf
  have hx : index (k + 1) j ^^^ 2 ^ k = index k (2 * j) := by
    have hb := Signed32.xor_block (m := k) (r := 2 ^ k - 1) (s := 0) (4 * j + 1) 1
      (by omega) (by omega)
    simp only [mul_one, Nat.add_zero, Nat.xor_zero, xor_one_block] at hb
    rw [index_succ_block, hb, index_block]
    ring_nf
  simp only [left, level_coord h, bind, Except.bind, pure, Except.pure]
  rw [if_neg (by omega), hs, coord, Signed32.xor_natCast h (by rw [pow_succ] at hp; omega), hx]
  rfl

theorem right_coord {k j : ℕ} (h : index (k + 1) j < 2 ^ 31) (hk30 : k + 1 ≤ 30) :
    right (coord (k + 1) j) = .ok (coord k (2 * j + 1)) := by
  have hp := Nat.pow_le_pow_right (n := 2) (by omega) (show k ≤ 29 by omega)
  have hk := Nat.two_pow_pos k
  have hs : Signed32.shl 3 ((k + 1 : ℕ) - 1) = (3 * 2 ^ k : ℕ) := by
    have := Signed32.shl_natCast (a := 3) (c := k) (by omega) (by omega)
    rw [← this]
    push_cast
    ring_nf
  have hx : index (k + 1) j ^^^ (3 * 2 ^ k) = index k (2 * j + 1) := by
    have hb := Signed32.xor_block (m := k) (r := 2 ^ k - 1) (s := 0) (4 * j + 1) 3
      (by omega) (by omega)
    simp only [Nat.add_zero, Nat.xor_zero, xor_three_block] at hb
    rw [index_succ_block, mul_comm 3, hb, index_block]
    ring_nf
  simp only [right, level_coord h, bind, Except.bind, pure, Except.pure]
  rw [if_neg (by omega), hs, coord, Signed32.xor_natCast h (by omega), hx]
  rfl

theorem log2Loop_eq {n d : ℕ} (hlo : 2 ^ d ≤ n) (hhi : n < 2 ^ (d + 1)) (hd : d ≤ 30) (fuel m : ℕ)
    (hm : m ≤ d + 1) (hf : d + 1 < m + fuel) : log2Loop (n : ℤ) fuel m = (d + 1 : ℕ) := by
  have hlt : n < 2 ^ 31 := hhi.trans_le (Nat.pow_le_pow_right (by omega) (by omega))
  induction fuel generalizing m with
  | zero => omega
  | succ fuel ih =>
    rw [log2Loop, Signed32.shr_natCast hlt (by omega)]
    by_cases hmd : m ≤ d
    · have hq : 0 < n / 2 ^ m :=
        Nat.div_pos ((Nat.pow_le_pow_right (by omega) hmd).trans hlo) (Nat.two_pow_pos m)
      rw [if_pos (by exact_mod_cast hq)]
      have := ih (m + 1) (by omega) (by omega)
      exact_mod_cast this
    · obtain rfl : m = d + 1 := by omega
      have hq : n / 2 ^ (d + 1) = 0 := Nat.div_eq_of_lt (by omega)
      rw [hq, if_neg (by simp)]

theorem log2_size {d : ℕ} (hd : d ≤ 30) : log2 (size d : ℕ) = (d : ℕ) := by
  have hl : log2Loop (size d : ℕ) 32 0 = (d + 1 : ℕ) := by
    have hs := InOrder.size_add_one d
    have h1 := Nat.one_le_two_pow (n := d)
    rw [pow_succ] at hs
    exact log2Loop_eq (by omega) (by rw [pow_succ]; omega) hd 32 0 (by omega) (by omega)
  have hp := InOrder.size_pos d
  rw [log2, if_neg (by omega), hl]
  push_cast
  ring

@[simp] theorem root_two_pow {d : ℕ} (hd : d ≤ 30) : root (2 ^ d) = coord d 0 := by
  have hb := Nat.pow_le_pow_right (n := 2) (by omega) hd
  have h2 := Nat.two_pow_pos d
  have hs := Signed32.shl_natCast (a := 1) (c := d) (by omega) (by omega)
  rw [one_mul] at hs
  have h1 : Signed32.shl 1 (d : ℕ) = (2 ^ d : ℕ) := hs
  simp only [root, nodeWidth_two_pow, rootFromNodeWidth, log2_size hd, coord, InOrder.index_root]
  rw [h1]
  omega

theorem parent_coord {d k j : ℕ} (hd : d ≤ 30) (hk : k < d) (hj : j < 2 ^ (d - k)) :
    parent (coord k j) (2 ^ d) = .ok (coord (k + 1) (j / 2)) := by
  have hlt : index k j < size d := InOrder.index_lt_size.mpr ⟨hk.le, hj⟩
  have hsz := size_lt_of_le hd
  have hl : index k j < 2 ^ 31 := by omega
  have hroot : coord k j ≠ coord d 0 := fun h => by have := (coord_inj.mp h).1; omega
  have hpk := Nat.pow_le_pow_right (n := 2) (by omega) (show k ≤ 29 by omega)
  have h2k := Nat.two_pow_pos k
  have hb : Signed32.and (Signed32.shr (coord k j) ((k : ℤ) + 1)) 1 = (j % 2 : ℕ) := by
    have h1 : Signed32.shr (coord k j) ((k + 1 : ℕ) : ℤ) = (index k j / 2 ^ (k + 1) : ℕ) :=
      Signed32.shr_natCast hl (by omega)
    have hq : index k j / 2 ^ (k + 1) = j := by
      rw [index, Nat.mul_add_div (Nat.two_pow_pos _), Nat.div_eq_of_lt, Nat.add_zero]
      rw [pow_succ]
      omega
    rw [hq] at h1
    push_cast at h1
    have hj31 : j < 2 ^ 31 := by
      have := Nat.pow_le_pow_right (n := 2) (by omega) (show d - k ≤ 30 by omega)
      omega
    have := Signed32.and_natCast (b := 1) hj31
    rw [Nat.and_one_is_mod] at this
    rw [h1]
    exact_mod_cast this
  have hs1 : Signed32.shl 1 (k : ℤ) = (2 ^ k : ℕ) := by
    have := Signed32.shl_natCast (a := 1) (c := k) (by omega) (by omega)
    rw [one_mul] at this
    exact_mod_cast this
  have hs2 : Signed32.shl (j % 2 : ℕ) ((k : ℤ) + 1) = (2 ^ k * (2 * (j % 2)) : ℕ) := by
    have hm := Nat.mod_lt j (show 2 > 0 by omega)
    have hb' : j % 2 * 2 ^ (k + 1) < 2 ^ 31 := by
      rw [pow_succ]
      have := Nat.mul_le_mul_right (2 ^ k * 2) (show j % 2 ≤ 1 by omega)
      omega
    have := Signed32.shl_natCast (a := j % 2) (c := k + 1) (by omega) hb'
    push_cast at this ⊢
    rw [this]
    ring
  have hor : index k j ||| 2 ^ k = 2 ^ k * (2 * j + 1) + (2 ^ k - 1) := by
    have hb' := Signed32.or_block (m := k) (r := 2 ^ k - 1) (s := 0) (2 * j) 1 (by omega) (by omega)
    simp only [mul_one, Nat.add_zero, Nat.or_zero, or_one_block] at hb'
    rw [index_block, hb']
  have hx : (2 ^ k * (2 * j + 1) + (2 ^ k - 1)) ^^^ (2 ^ k * (2 * (j % 2))) = index (k + 1) (j / 2) := by
    have hb' := Signed32.xor_block (m := k) (r := 2 ^ k - 1) (s := 0) (2 * j + 1) (2 * (j % 2))
      (by omega) (by omega)
    simp only [Nat.add_zero, Nat.xor_zero, xor_parity_block] at hb'
    rw [hb', index_succ_block]
  have hor31 : 2 ^ k * (2 * j + 1) + (2 ^ k - 1) < 2 ^ 31 := by
    have h := Nat.or_lt_two_pow hl (show 2 ^ k < 2 ^ 31 by omega)
    rwa [hor] at h
  have hbit31 : 2 ^ k * (2 * (j % 2)) < 2 ^ 31 := by
    have := Nat.mul_le_mul_left (2 ^ k) (show 2 * (j % 2) ≤ 2 by omega)
    omega
  have hrange : ¬(coord k j < 0 ∨ coord k j ≥ (size d : ℕ)) := by
    rw [coord]
    omega
  simp only [parent, nodeWidth_two_pow, root_two_pow hd, level_coord hl, bind, Except.bind, pure,
    Except.pure]
  rw [if_neg hrange, if_neg hroot]
  rw [hb, hs1, hs2, coord, Signed32.or_natCast hl (by omega), hor,
    Signed32.xor_natCast hor31 hbit31, hx, coord]

/-- The other child of a node's parent. -/
def sib (j : ℕ) : ℕ := if j % 2 = 0 then j + 1 else j - 1

theorem sib_div_two (j : ℕ) : sib j / 2 = j / 2 := by
  unfold sib
  split_ifs <;> omega

theorem sib_ne (j : ℕ) : sib j ≠ j := by
  unfold sib
  split_ifs <;> omega

theorem sib_sib (j : ℕ) : sib (sib j) = j := by
  unfold sib
  split_ifs <;> omega

theorem sib_lt {m j : ℕ} (h : j < 2 ^ (m + 1)) : sib j < 2 ^ (m + 1) := by
  rw [pow_succ] at *
  unfold sib
  split_ifs <;> omega

/-- Two children of one parent are a node and its sibling. -/
theorem eq_or_eq_sib {a b : ℕ} (h : a / 2 = b / 2) : a = b ∨ a = sib b := by
  unfold sib
  split_ifs <;> omega

/-- Two leaves leave their common ancestor by its two children. -/
theorem exists_branch {d i l : ℕ} (hi : i < 2 ^ d) (hl : l < 2 ^ d) (hne : l ≠ i) :
    ∃ m < d, l / 2 ^ m = sib (i / 2 ^ m) := by
  classical
  have hex : ∃ m, l / 2 ^ m = i / 2 ^ m :=
    ⟨d, by rw [InOrder.div_two_pow_eq_zero hi, InOrder.div_two_pow_eq_zero hl]⟩
  have hle : Nat.find hex ≤ d :=
    Nat.find_min' hex (by rw [InOrder.div_two_pow_eq_zero hi, InOrder.div_two_pow_eq_zero hl])
  cases hm : Nat.find hex with
  | zero =>
    have h0 := Nat.find_spec hex
    rw [hm] at h0
    simp only [pow_zero, Nat.div_one] at h0
    exact absurd h0 hne
  | succ m =>
    have hsucc := Nat.find_spec hex
    have hnot : l / 2 ^ m ≠ i / 2 ^ m := Nat.find_min hex (by omega)
    rw [hm, InOrder.div_two_pow_succ, InOrder.div_two_pow_succ] at hsucc
    exact ⟨m, by omega, (eq_or_eq_sib hsucc).resolve_left hnot⟩

/-- The leaf stands below the nodes of the path from the branch up. -/
theorem branch_iff {i l m m' : ℕ} (hm : l / 2 ^ m = sib (i / 2 ^ m)) :
    l / 2 ^ (m' + 1) = i / 2 ^ (m' + 1) ↔ m ≤ m' := by
  constructor
  · intro h
    by_contra hlt
    have hsame : l / 2 ^ m = i / 2 ^ m := InOrder.ancestor_of_ancestor (by omega) h
    exact sib_ne _ (hm.symm.trans hsame)
  · intro h
    refine InOrder.ancestor_of_ancestor (k := m + 1) (by omega) ?_
    rw [InOrder.div_two_pow_succ, InOrder.div_two_pow_succ, hm, sib_div_two]

theorem sibling_coord {d k j : ℕ} (hd : d ≤ 30) (hk : k < d) (hj : j < 2 ^ (d - k)) :
    sibling (coord k j) (2 ^ d) = .ok (coord k (sib j)) := by
  have hp : index (k + 1) (j / 2) < 2 ^ 31 := by
    have hlt : index (k + 1) (j / 2) < size d := by
      rw [InOrder.index_lt_size]
      refine ⟨hk, ?_⟩
      rw [show d - k = d - (k + 1) + 1 by omega, pow_succ] at hj
      omega
    have := size_lt_of_le hd
    omega
  simp only [sibling, parent_coord hd hk hj, bind, Except.bind]
  have hside := InOrder.index_lt_ancestor (k := k) (m := k + 1) (j := j) (by omega)
  simp only [Nat.add_sub_cancel_left, pow_one, Nat.sub_self, pow_zero, Nat.div_one] at hside
  by_cases hj2 : j % 2 = 0
  · have hsib : sib j = 2 * (j / 2) + 1 := by
      rw [sib, if_pos hj2]
      omega
    rw [if_pos (by rw [coord, coord]; exact_mod_cast hside.mpr hj2), right_coord hp (by omega), hsib]
  · have hsib : sib j = 2 * (j / 2) := by
      rw [sib, if_neg hj2]
      omega
    rw [if_neg (by rw [coord, coord]; exact_mod_cast mt hside.mp hj2), left_coord hp, hsib]

/-- The direct path of a node: its ancestors, leafward first. -/
def pathOf (d k j : ℕ) : List ℤ := (List.range (d - k)).map fun m => coord (k + m + 1) (j / 2 ^ (m + 1))

theorem pathOf_succ {d k j : ℕ} (hk : k < d) :
    pathOf d k j = coord (k + 1) (j / 2) :: pathOf d (k + 1) (j / 2) := by
  rw [pathOf, show d - k = d - (k + 1) + 1 by omega, List.range_succ_eq_map, List.map_cons,
    List.map_map, pathOf]
  simp only [Nat.add_zero, Nat.zero_add, pow_one, List.cons.injEq, true_and]
  apply List.map_congr_left
  intro m _
  simp only [Function.comp_apply, Nat.succ_eq_add_one]
  rw [show k + (m + 1) + 1 = k + 1 + m + 1 by omega, show m + 1 + 1 = 1 + (m + 1) by omega, pow_add,
    pow_one, Nat.div_div_eq_div_mul]

theorem directPathLoop_coord {d : ℕ} (hd : d ≤ 30) (fuel k j : ℕ) (hk : k ≤ d)
    (hj : j < 2 ^ (d - k)) (hf : d < k + fuel) :
    directPathLoop (2 ^ d) (coord d 0) fuel (coord k j) = .ok (pathOf d k j) := by
  induction fuel generalizing k j with
  | zero => omega
  | succ fuel ih =>
    rw [directPathLoop]
    by_cases hkd : k = d
    · subst hkd
      have hj0 : j = 0 := by simpa using hj
      rw [if_pos (by rw [hj0]), pathOf, Nat.sub_self]
      rfl
    · have hlt : k < d := by omega
      have hj2 : j / 2 < 2 ^ (d - (k + 1)) := by
        rw [show d - k = d - (k + 1) + 1 by omega, pow_succ] at hj
        omega
      rw [if_neg fun h => hkd (coord_inj.mp h).1, parent_coord hd hlt hj]
      simp only [bind, Except.bind]
      rw [ih (k + 1) (j / 2) hlt hj2 (by omega), pathOf_succ hlt]
      rfl

theorem directPath_coord {d k j : ℕ} (hd : d ≤ 30) (hk : k ≤ d) (hj : j < 2 ^ (d - k)) :
    directPath (coord k j) (2 ^ d) = .ok (pathOf d k j) := by
  have hlt : index k j < size d := InOrder.index_lt_size.mpr ⟨hk, hj⟩
  have hrange : ¬(coord k j < 0 ∨ coord k j ≥ (size d : ℕ)) := by
    rw [coord]
    omega
  simp only [directPath, nodeWidth_two_pow, root_two_pow hd, bind, Except.bind]
  rw [if_neg hrange]
  exact directPathLoop_coord hd 33 k j hk hj (by omega)

/-- The direct path of a leaf. -/
theorem directPath_leaf {d i : ℕ} (hd : d ≤ 30) (hi : i < 2 ^ d) :
    directPath (coord 0 i) (2 ^ d) =
      .ok ((List.range d).map fun m => coord (m + 1) (i / 2 ^ (m + 1))) := by
  rw [directPath_coord hd (Nat.zero_le d) (by simpa using hi), pathOf]
  simp

/-- A leaf outside the tree has no direct path. -/
theorem directPath_of_le {d i : ℕ} (hi : 2 ^ d ≤ i) (l : List ℤ) :
    directPath (coord 0 i) (2 ^ d) ≠ .ok l := by
  have hlt : ¬ index 0 i < size d := by rw [InOrder.leaf_lt_size]; omega
  have hrange : coord 0 i < 0 ∨ coord 0 i ≥ (size d : ℕ) := by
    right
    rw [coord]
    omega
  simp only [directPath, nodeWidth_two_pow, bind, Except.bind]
  rw [if_pos hrange]
  simp [throw, throwThe, MonadExceptOf.throw]

/-- Mapping a step that always returns. -/
theorem mapM_ok {α β : Type} {f : α → Except MlsError β} {g : α → β} (l : List α)
    (h : ∀ a ∈ l, f a = .ok (g a)) : l.mapM f = .ok (l.map g) := by
  induction l with
  | nil => rfl
  | cons a l ih =>
    rw [List.mapM_cons, h a (List.mem_cons_self ..), ih fun b hb => h b (List.mem_cons_of_mem _ hb)]
    rfl

theorem copath_leaf {d i : ℕ} (hd : d ≤ 30) (hi : i < 2 ^ d) :
    copath (coord 0 i) (2 ^ d) = .ok ((List.range d).map fun m => coord m (sib (i / 2 ^ m))) := by
  rw [copath, root_two_pow hd]
  by_cases h0 : d = 0
  · subst h0
    have hi0 : i = 0 := by simpa using hi
    rw [if_pos (by rw [hi0])]
    rfl
  · rw [if_neg fun h => h0 (coord_inj.mp h).1.symm, directPath_leaf hd hi]
    simp only [bind, Except.bind]
    obtain ⟨d', rfl⟩ := Nat.exists_eq_succ_of_ne_zero h0
    have hl : (coord 0 i :: (List.range (d' + 1)).map fun m => coord (m + 1) (i / 2 ^ (m + 1))).dropLast
        = (List.range (d' + 1)).map fun m => coord m (i / 2 ^ m) := by
      rw [List.range_succ, List.map_append, List.map_singleton, ← List.cons_append,
        List.dropLast_concat, ← List.range_succ, List.range_succ_eq_map, List.map_cons, List.map_map]
      simp only [pow_zero, Nat.div_one, List.cons.injEq, true_and]
      rfl
    rw [Nat.succ_eq_add_one, hl, List.mapM_map, mapM_ok]
    intro m hm
    have hm' := List.mem_range.mp hm
    exact sibling_coord hd hm' (InOrder.div_two_pow_lt (by omega) hi)

/-- Both children of an inner node of a tree are in the tree. -/
theorem child_lt_size {d k j c : ℕ} (h : index (k + 1) j < size d) (hc : c ≤ 2 * j + 1) :
    index k c < size d := by
  rw [InOrder.index_lt_size] at *
  obtain ⟨hk, hj⟩ := h
  refine ⟨by omega, ?_⟩
  rw [show d - k = d - (k + 1) + 1 by omega, pow_succ]
  omega

/-- The descent from a node to one end of its subtree. -/
theorem leafRangeLoop_coord {child : ℤ → Except MlsError ℤ} {c : ℕ → ℕ} {d : ℕ}
    (hc : ∀ k j, index (k + 1) j < size d → k + 1 ≤ d → child (coord (k + 1) j) = .ok (coord k (c j)))
    (hlt : ∀ k j, index (k + 1) j < size d → index k (c j) < size d)
    (k fuel j : ℕ) (hk : k ≤ d) (hf : k < fuel) (h : index k j < size d) :
    leafRangeLoop child fuel (coord k j) = .ok (coord 0 (c^[k] j)) := by
  induction k generalizing fuel j with
  | zero =>
    obtain ⟨fuel, rfl⟩ := Nat.exists_eq_succ_of_ne_zero (show fuel ≠ 0 by omega)
    simp [leafRangeLoop, pure, Except.pure]
  | succ k ih =>
    obtain ⟨fuel, rfl⟩ := Nat.exists_eq_succ_of_ne_zero (show fuel ≠ 0 by omega)
    simp only [leafRangeLoop, isLeaf_coord, Nat.succ_ne_zero, decide_false, Bool.false_eq_true,
      if_false, hc k j h hk, bind, Except.bind]
    rw [ih fuel (c j) (by omega) (by omega) (hlt k j h), Function.iterate_succ_apply]

theorem iterate_left (k j : ℕ) : (fun j => 2 * j)^[k] j = 2 ^ k * j := by
  induction k generalizing j with
  | zero => simp
  | succ k ih => rw [Function.iterate_succ_apply, ih]; ring

theorem iterate_right (k j : ℕ) : (fun j => 2 * j + 1)^[k] j + 1 = 2 ^ k * (j + 1) := by
  induction k generalizing j with
  | zero => simp
  | succ k ih => rw [Function.iterate_succ_apply, ih]; ring

/-- The leaves below a node are those whose quotient is its position. -/
theorem leafRange_coord {d k j : ℕ} (hd : d ≤ 30) (h : index k j < size d) :
    leafRange (coord k j) = .ok (2 ^ k * j, 2 ^ k * (j + 1) - 1) := by
  have hk := (InOrder.index_lt_size.mp h).1
  have hlo := leafRangeLoop_coord (c := fun j => 2 * j) (fun k j h hk => left_coord (by
    have := size_lt_of_le hd; omega)) (fun k j h => child_lt_size h (by omega)) k 33 j hk (by omega) h
  have hhi := leafRangeLoop_coord (c := fun j => 2 * j + 1) (fun k j h hk => right_coord (by
    have := size_lt_of_le hd; omega) (by omega)) (fun k j h => child_lt_size h (by omega))
    k 33 j hk (by omega) h
  have he := iterate_right k j
  rw [iterate_left] at hlo
  simp only [leafRange, hlo, hhi, bind, Except.bind, nodeToLeafIndex_coord, pure, Except.pure, ← he,
    Nat.add_sub_cancel]

theorem mem_leafRange_iff {k j i : ℕ} :
    2 ^ k * j ≤ i ∧ i ≤ 2 ^ k * (j + 1) - 1 ↔ i / 2 ^ k = j := by
  have hp := Nat.two_pow_pos k
  rw [Nat.div_eq_iff hp]
  have e : 2 ^ k * (j + 1) = 2 ^ k * j + 2 ^ k := by ring
  rw [Nat.mul_comm j]
  omega

theorem isAncestor_coord {d k j k' j' : ℕ} (hd : d ≤ 30) (hk : k ≤ d) (hj : j < 2 ^ (d - k))
    (hk' : k' ≤ d) :
    isAncestor (coord k j) (coord k' j') (size d) = .ok (decide (k < k' ∧ j / 2 ^ (k' - k) = j')) := by
  rw [isAncestor, leafWidth_size, directPath_coord hd hk hj]
  simp only [bind, Except.bind, pure, Except.pure, List.contains_eq_mem, Except.ok.injEq,
    decide_eq_decide, pathOf, List.mem_map, List.mem_range, coord_inj]
  constructor
  · rintro ⟨m, hm, rfl, rfl⟩
    exact ⟨by omega, by rw [show k + m + 1 - k = m + 1 by omega]⟩
  · rintro ⟨hlt, rfl⟩
    exact ⟨k' - k - 1, by omega, by omega, by rw [show k' - k - 1 + 1 = k' - k by omega]⟩

/-! ## The widest tree an array can hold -/

/-- At `2 ^ 32 - 1` nodes the computed root is below every 32-bit number. -/
theorem root_widest : root (2 ^ 31) = -2147483649 := by decide +kernel

theorem parent_ge {n p : ℤ} {w : ℚ} (h : parent n w = .ok p) : -2 ^ 31 ≤ p := by
  have hx := fun a b : BitVec 32 => (Signed32.toInt_range (a ^^^ b)).1
  simp only [parent] at h
  split at h
  · simp [throw, throwThe, MonadExceptOf.throw, bind, Except.bind] at h
  · split at h
    · simp [throw, throwThe, MonadExceptOf.throw, bind, Except.bind] at h
    · obtain ⟨k, -, h⟩ := bind_eq_ok.mp h
      cases h
      exact hx _ _

theorem level_eq_ok {n k : ℤ} (h : level n = .ok k) :
    ∃ l j, n = coord l j ∧ index l j < 2 ^ 31 ∧ k = l := by
  have hrange : 0 ≤ n ∧ n < 2 ^ 31 := by
    obtain ⟨_, hassert, -⟩ := bind_eq_ok.mp h
    unfold assertValidNodeIndex at hassert
    split_ifs at hassert with hn
    omega
  obtain ⟨l, j, hindex⟩ := InOrder.exists_index n.toNat
  have hcoord : n = coord l j := by
    rw [coord, ← hindex]
    omega
  have hlt : index l j < 2 ^ 31 := by omega
  rw [hcoord, level_coord hlt] at h
  exact ⟨l, j, hcoord, hlt, (Except.ok.inj h).symm⟩

/-- No parent's index is even, as a leaf's is. -/
theorem parent_odd {n p : ℤ} {w : ℚ} (h : parent n w = .ok p) (hp : 0 ≤ p) : p % 2 = 1 := by
  simp only [parent] at h
  split_ifs at h with hn hroot hroot
  · cases h
  · cases h
  · cases h
  · obtain ⟨k, hk, h⟩ := bind_eq_ok.mp h
    obtain ⟨l, j, rfl, hlt, rfl⟩ := level_eq_ok hk
    have hl := level_lt hlt
    by_cases h31 : l = 31
    · -- the last level there is: the shift counts start over
      subst h31
      obtain rfl : j = 0 := by
        rw [index] at hlt
        omega
      obtain rfl := Except.ok.inj h
      exact absurd hp (by decide)
    · obtain rfl := Except.ok.inj h
      have hcount : Signed32.count ((l : ℤ) + 1) = l + 1 := by
        have := Signed32.count_natCast (c := l + 1) (by omega)
        exact_mod_cast this
      rw [Signed32.xor, Signed32.toInt_emod_two]
      have hlevel : Signed32.count (l : ℤ) = l := Signed32.count_natCast hl
      have heven := InOrder.index_even_iff (k := l) (j := j)
      simp only [Signed32.or, Signed32.shl, hcount, hlevel, Signed32.wrap, BitVec.ofInt_toInt]
      have hwrap : BitVec.ofInt 32 (coord l j) = BitVec.ofNat 32 (index l j) :=
        Signed32.wrap_natCast _
      have hbit : (BitVec.ofNat 32 (index l j)).getLsbD 0 = decide (index l j % 2 = 1) := by
        rw [BitVec.getLsbD_ofNat, Nat.testBit_zero]
        simp
      simp only [hwrap, BitVec.getLsbD_xor, BitVec.getLsbD_or, BitVec.getLsbD_shiftLeft, hbit]
      by_cases hzero : l = 0
      · simp [hzero]
      · have hodd : index l j % 2 = 1 := by omega
        simp [hodd]

theorem directPathLoop_unreachable {w : ℚ} {r : ℤ} (hr : r < -2 ^ 31) (fuel : ℕ) (n : ℤ)
    (hn : n ≠ r) (l : List ℤ) : directPathLoop w r fuel n ≠ .ok l := by
  induction fuel generalizing n l with
  | zero => simp [directPathLoop, throw, throwThe, MonadExceptOf.throw]
  | succ fuel ih =>
    intro h
    rw [directPathLoop, if_neg hn, bind_eq_ok] at h
    obtain ⟨p, hp, h⟩ := h
    rw [bind_eq_ok] at h
    obtain ⟨d, hd, -⟩ := h
    exact ih p (by have := parent_ge hp; omega) d hd

/-- No walk in a tree of the widest size returns. -/
theorem directPath_widest (n : ℤ) (l : List ℤ) : directPath n (2 ^ 31) ≠ .ok l := by
  intro h
  simp only [directPath] at h
  split at h
  · simp [throw, throwThe, MonadExceptOf.throw, bind, Except.bind] at h
  · rename_i hn
    have hr := root_widest
    refine directPathLoop_unreachable (by omega) 33 n ?_ l h
    omega

end WebcryptoMls
