import WebcryptoMls.Treemath
import WebcryptoMls.Checked32

/-!
# Tree mathematics without overflow

The functions of `Treemath` over the checked operators. In a tree whose nodes
fewer than `2 ^ 31` indices address, each returns or throws what the function of
the source does and never overflows.
-/
namespace WebcryptoMls
open Signed32 (Fault checkedAnd checkedOr checkedXor checkedShl checkedShr lift)

def log2LoopChecked (x : ℤ) : ℕ → ℤ → Except (Fault MlsError) ℤ
  | 0, k => pure k
  | fuel + 1, k => do
    let s ← checkedShr x k
    if s > 0 then log2LoopChecked x fuel (k + 1) else pure k

def log2Checked (x : ℤ) : Except (Fault MlsError) ℤ :=
  if x = 0 then pure 0
  else do
    let k ← log2LoopChecked x 32 0
    pure (k - 1)

def levelLoopChecked (nodeIndex : ℤ) : ℕ → ℤ → Except (Fault MlsError) ℤ
  | 0, k => pure k
  | fuel + 1, k => do
    let s ← checkedShr nodeIndex k
    let b ← checkedAnd s 1
    if b = 1 then levelLoopChecked nodeIndex fuel (k + 1) else pure k

def levelChecked (nodeIndex : ℤ) : Except (Fault MlsError) ℤ := do
  lift (assertValidNodeIndex nodeIndex)
  let b ← checkedAnd nodeIndex 1
  if b = 0 then pure 0 else levelLoopChecked nodeIndex 32 0

def rootFromNodeWidthChecked (nodeWidth : ℕ) : Except (Fault MlsError) ℤ := do
  let k ← log2Checked nodeWidth
  let s ← checkedShl 1 k
  pure (s - 1)

def rootChecked (leafWidth : ℚ) : Except (Fault MlsError) ℤ :=
  let w := nodeWidth leafWidth
  rootFromNodeWidthChecked w

def leftChecked (nodeIndex : ℤ) : Except (Fault MlsError) ℤ := do
  let k ← levelChecked nodeIndex
  if k = 0 then throw (.thrown (internalError "leaf node has no children"))
  let s ← checkedShl 1 (k - 1)
  checkedXor nodeIndex s

def rightChecked (nodeIndex : ℤ) : Except (Fault MlsError) ℤ := do
  let k ← levelChecked nodeIndex
  if k = 0 then throw (.thrown (internalError "leaf node has no children"))
  let s ← checkedShl 3 (k - 1)
  checkedXor nodeIndex s

def parentChecked (nodeIndex : ℤ) (leafWidth : ℚ) : Except (Fault MlsError) ℤ := do
  let w := nodeWidth leafWidth
  if nodeIndex < 0 ∨ nodeIndex ≥ w then
    throw (.thrown (validationError s!"node index {nodeIndex} out of range for tree width {w}"))
  let r ← rootChecked leafWidth
  if nodeIndex = r then throw (.thrown (internalError "root node has no parent"))
  let k ← levelChecked nodeIndex
  let s ← checkedShr nodeIndex (k + 1)
  let b ← checkedAnd s 1
  let one ← checkedShl 1 k
  let set ← checkedOr nodeIndex one
  let bit ← checkedShl b (k + 1)
  checkedXor set bit

def siblingChecked (x : ℤ) (leafWidth : ℚ) : Except (Fault MlsError) ℤ := do
  let p ← parentChecked x leafWidth
  if x < p then rightChecked p else leftChecked p

def directPathLoopChecked (leafWidth : ℚ) (r : ℤ) : ℕ → ℤ → Except (Fault MlsError) (List ℤ)
  | 0, _ => throw (.thrown (nonTermination "directPath"))
  | fuel + 1, nodeIndex =>
    if nodeIndex = r then pure []
    else do
      let p ← parentChecked nodeIndex leafWidth
      let d ← directPathLoopChecked leafWidth r fuel p
      pure (p :: d)

def directPathChecked (nodeIndex : ℤ) (leafWidth : ℚ) : Except (Fault MlsError) (List ℤ) := do
  let w := nodeWidth leafWidth
  if nodeIndex < 0 ∨ nodeIndex ≥ w then
    throw (.thrown (validationError s!"node index {nodeIndex} out of range for tree width {w}"))
  let r ← rootChecked leafWidth
  directPathLoopChecked leafWidth r 33 nodeIndex

def copathChecked (nodeIndex : ℤ) (leafWidth : ℚ) : Except (Fault MlsError) (List ℤ) := do
  let r ← rootChecked leafWidth
  if nodeIndex = r then pure []
  else
    let d ← directPathChecked nodeIndex leafWidth
    ((nodeIndex :: d).dropLast).mapM fun y => siblingChecked y leafWidth

def isAncestorChecked (childNodeIndex ancestor : ℤ) (nodeWidth : ℕ) :
    Except (Fault MlsError) Bool := do
  let d ← directPathChecked childNodeIndex (leafWidth nodeWidth)
  pure (d.contains ancestor)

def leafRangeLoopChecked (child : ℤ → Except (Fault MlsError) ℤ) :
    ℕ → ℤ → Except (Fault MlsError) ℤ
  | 0, _ => throw (.thrown (nonTermination "leafRange"))
  | fuel + 1, n =>
    if isLeaf n then pure n
    else do
      let c ← child n
      leafRangeLoopChecked child fuel c

def leafRangeChecked (nodeIndex : ℤ) : Except (Fault MlsError) (ℕ × ℕ) := do
  let lo ← leafRangeLoopChecked leftChecked 33 nodeIndex
  let hi ← leafRangeLoopChecked rightChecked 33 nodeIndex
  let first ← lift (nodeToLeafIndex lo)
  let last ← lift (nodeToLeafIndex hi)
  pure (first, last)

/-! ## Agreement -/

section
open InOrder (index size)

theorem log2LoopChecked_eq {n : ℕ} (hn : n < 2 ^ 31) (fuel m : ℕ) (hf : m + fuel ≤ 32) :
    log2LoopChecked n fuel m = .ok (log2Loop n fuel m) := by
  induction fuel generalizing m with
  | zero => rfl
  | succ fuel ih =>
    rw [log2LoopChecked, Signed32.checkedShr_natCast hn (by omega), Signed32.ok_bind, log2Loop]
    split_ifs
    · exact_mod_cast ih (m + 1) (by omega)
    · rfl

theorem log2Checked_eq {n : ℕ} (hn : n < 2 ^ 31) : log2Checked n = .ok (log2 n) := by
  have h := log2LoopChecked_eq hn 32 0 (by omega)
  rw [Nat.cast_zero] at h
  rw [log2Checked, log2]
  split_ifs
  · rfl
  · rw [h]
    rfl

theorem levelLoopChecked_eq {n : ℕ} (hn : n < 2 ^ 31) (fuel m : ℕ) (hf : m + fuel ≤ 32) :
    levelLoopChecked n fuel m = .ok (levelLoop n fuel m) := by
  induction fuel generalizing m with
  | zero => rfl
  | succ fuel ih =>
    have hlt : n / 2 ^ m < 2 ^ 31 := (Nat.div_le_self n _).trans_lt hn
    have hand := Signed32.checkedAnd_natCast (ε := MlsError) (b := 1) hlt (by omega)
    rw [levelLoopChecked, levelLoop, Signed32.checkedShr_natCast hn (by omega), Signed32.ok_bind,
      Signed32.shr_natCast hn (by omega)]
    rw [Nat.cast_one] at hand
    rw [hand, Signed32.ok_bind]
    split_ifs
    · exact_mod_cast ih (m + 1) (by omega)
    · rfl

theorem levelChecked_natCast {n : ℕ} (hn : n < 2 ^ 31) : levelChecked n = lift (level n) := by
  have hand := Signed32.checkedAnd_natCast (ε := MlsError) (b := 1) hn (by omega)
  have hloop := levelLoopChecked_eq hn 32 0 (by omega)
  rw [Nat.cast_one] at hand
  rw [Nat.cast_zero] at hloop
  rw [levelChecked, level, Signed32.lift_bind, hand, hloop]
  simp only [Signed32.ok_bind, apply_ite lift, Signed32.lift_pure]
  rfl

theorem levelChecked_coord {k j : ℕ} (h : index k j < 2 ^ 31) :
    levelChecked (coord k j) = .ok (k : ℤ) := by
  rw [coord, levelChecked_natCast h, ← coord, level_coord h, Signed32.lift_ok]

variable {d : ℕ}

theorem rootChecked_eq (hd : d ≤ 30) : rootChecked (2 ^ d) = .ok (root (2 ^ d)) := by
  have hb := Nat.pow_le_pow_right (n := 2) (by omega) hd
  have hs := Signed32.checkedShl_natCast (ε := MlsError) (a := 1) (c := d) (by omega) (by omega)
  rw [Nat.cast_one] at hs
  simp only [rootChecked, rootFromNodeWidthChecked, root, rootFromNodeWidth, nodeWidth_two_pow]
  rw [log2Checked_eq (size_lt_of_le hd), Signed32.ok_bind, log2_size hd, hs, Signed32.ok_bind]
  rfl

/-- At the next width the shift itself leaves the range. -/
example : rootChecked (2 ^ 31) = .error .overflow := by decide +kernel

/-- The step to a child flips the bits of `c` at the child's level. -/
theorem childChecked_eq {k j : ℕ} (h : index (k + 1) j < 2 ^ 31) (c : ℕ) (hc : c * 2 ^ k < 2 ^ 31) :
    (do
      let s ← checkedShl c ((k + 1 : ℕ) - 1)
      checkedXor (coord (k + 1) j) s : Except (Fault MlsError) ℤ) =
      .ok (Signed32.xor (coord (k + 1) j) (Signed32.shl c ((k + 1 : ℕ) - 1))) := by
  have hk : ((k + 1 : ℕ) : ℤ) - 1 = (k : ℕ) := by
    push_cast
    ring
  have hlt := level_lt h
  rw [hk, Signed32.checkedShl_natCast (by omega) hc, Signed32.ok_bind,
    Signed32.shl_natCast (by omega) hc, coord, Signed32.checkedXor_natCast h hc]

theorem leftChecked_coord {k j : ℕ} (h : index k j < 2 ^ 31) :
    leftChecked (coord k j) = lift (left (coord k j)) := by
  rw [leftChecked, left, levelChecked_coord h, level_coord h]
  simp only [Signed32.ok_bind, ok_bind]
  cases k with
  | zero => rfl
  | succ k =>
    have hp := two_pow_le_index (k + 1) j
    have hchild := childChecked_eq h 1 (by rw [pow_succ] at hp; omega)
    rw [Nat.cast_one] at hchild
    rw [if_neg (by omega), if_neg (by omega)]
    exact hchild

theorem rightChecked_coord {k j : ℕ} (h : index k j < 2 ^ 31) (hk : k ≤ 30) :
    rightChecked (coord k j) = lift (right (coord k j)) := by
  rw [rightChecked, right, levelChecked_coord h, level_coord h]
  simp only [Signed32.ok_bind, ok_bind]
  cases k with
  | zero => rfl
  | succ k =>
    have hp := Nat.pow_le_pow_right (n := 2) (by omega) (show k ≤ 29 by omega)
    have hchild := childChecked_eq h 3 (by omega)
    rw [if_neg (by omega), if_neg (by omega)]
    exact hchild

/-- The step to a parent sets the level's bit and flips the one above it. -/
theorem parentBitsChecked_eq {n k : ℕ} (hn : n < 2 ^ 31) (hk : k < 30) :
    (do
      let s ← checkedShr n (k + 1)
      let b ← checkedAnd s 1
      let one ← checkedShl 1 k
      let set ← checkedOr n one
      let bit ← checkedShl b (k + 1)
      checkedXor set bit : Except (Fault MlsError) ℤ) =
      .ok (Signed32.xor (Signed32.or n (Signed32.shl 1 k))
        (Signed32.shl (Signed32.and (Signed32.shr n (k + 1)) 1) (k + 1))) := by
  have hpow := Nat.pow_le_pow_right (n := 2) (by omega) (show k ≤ 29 by omega)
  have hpow' : 1 * 2 ^ k < 2 ^ 31 := by omega
  have hdiv : n / 2 ^ (k + 1) < 2 ^ 31 := (Nat.div_le_self n _).trans_lt hn
  have hone : n ||| 1 * 2 ^ k < 2 ^ 31 := Nat.or_lt_two_pow hn hpow'
  have hand : n / 2 ^ (k + 1) &&& 1 ≤ 1 := Nat.and_le_right
  have hbit : (n / 2 ^ (k + 1) &&& 1) * 2 ^ (k + 1) < 2 ^ 31 := by
    have := Nat.mul_le_mul_right (2 ^ (k + 1)) hand
    rw [pow_succ] at this ⊢
    omega
  have hand₁ := Signed32.checkedAnd_natCast (ε := MlsError) (b := 1) hdiv (by omega)
  have hand₂ := Signed32.and_natCast (b := 1) hdiv
  have hshl₁ := Signed32.checkedShl_natCast (ε := MlsError) (a := 1) (show k < 32 by omega) hpow'
  have hshl₂ := Signed32.shl_natCast (a := 1) (show k < 32 by omega) hpow'
  rw [Nat.cast_one] at hand₁ hand₂ hshl₁ hshl₂
  rw [← Nat.cast_succ, Signed32.checkedShr_natCast hn (by omega), Signed32.ok_bind,
    Signed32.shr_natCast hn (by omega), hand₁, Signed32.ok_bind, hand₂, hshl₁, Signed32.ok_bind,
    hshl₂, Signed32.checkedOr_natCast hn hpow', Signed32.ok_bind, Signed32.or_natCast hn hpow',
    Signed32.checkedShl_natCast (by omega) hbit, Signed32.ok_bind,
    Signed32.shl_natCast (by omega) hbit, Signed32.checkedXor_natCast hone hbit]

theorem parentChecked_coord {k j : ℕ} (hd : d ≤ 30) (hk : k ≤ d) (hj : j < 2 ^ (d - k)) :
    parentChecked (coord k j) (2 ^ d) = lift (parent (coord k j) (2 ^ d)) := by
  have hlt : index k j < size d := InOrder.index_lt_size.mpr ⟨hk, hj⟩
  have hsz := size_lt_of_le hd
  have hl : index k j < 2 ^ 31 := by omega
  have hrange : ¬(coord k j < 0 ∨ coord k j ≥ (size d : ℕ)) := by
    rw [coord]
    omega
  unfold parentChecked parent
  simp only [nodeWidth_two_pow]
  rw [if_neg hrange, if_neg hrange, rootChecked_eq hd, Signed32.ok_bind]
  by_cases hroot : coord k j = root (2 ^ d)
  · rw [if_pos hroot, if_pos hroot]
    rfl
  · have hkd : k ≠ d := by
      rintro rfl
      rw [Nat.sub_self] at hj
      exact hroot (by rw [root_two_pow hd, show j = 0 by omega])
    rw [if_neg hroot, if_neg hroot, levelChecked_coord hl, level_coord hl, Signed32.ok_bind, ok_bind,
      coord, parentBitsChecked_eq hl (by omega), Signed32.lift_pure]

/-- A node index of the tree with `2 ^ d` leaves. -/
def InTree (d : ℕ) (x : ℤ) : Prop := 0 ≤ x ∧ x < nodeWidth (2 ^ d)

theorem inTree_iff {x : ℤ} : InTree d x ↔ ∃ k j, x = coord k j ∧ k ≤ d ∧ j < 2 ^ (d - k) := by
  rw [InTree, nodeWidth_two_pow]
  constructor
  · rintro ⟨h0, hx⟩
    lift x to ℕ using h0
    obtain ⟨k, j, rfl⟩ := InOrder.exists_index x
    exact ⟨k, j, rfl, InOrder.index_lt_size.mp (by exact_mod_cast hx)⟩
  · rintro ⟨k, j, rfl, hkj⟩
    have hlt := InOrder.index_lt_size.mpr hkj
    exact ⟨coord_nonneg k j, by rwa [coord, Nat.cast_lt]⟩

theorem coord_inTree {k j : ℕ} : InTree d (coord k j) ↔ k ≤ d ∧ j < 2 ^ (d - k) := by
  rw [inTree_iff]
  constructor
  · rintro ⟨k', j', h, hkj⟩
    obtain ⟨rfl, rfl⟩ := coord_inj.mp h
    exact hkj
  · exact fun hkj => ⟨k, j, rfl, hkj⟩

theorem index_lt_of_inTree {k j : ℕ} (hd : d ≤ 30) (h : InTree d (coord k j)) :
    index k j < 2 ^ 31 :=
  (InOrder.index_lt_size.mpr (coord_inTree.mp h)).trans (size_lt_of_le hd)

variable {x p : ℤ}

theorem levelChecked_eq (hd : d ≤ 30) (hx : InTree d x) : levelChecked x = lift (level x) := by
  obtain ⟨k, j, rfl, -⟩ := inTree_iff.mp hx
  exact levelChecked_natCast (index_lt_of_inTree hd hx)

theorem parentChecked_eq (hd : d ≤ 30) (hx : InTree d x) :
    parentChecked x (2 ^ d) = lift (parent x (2 ^ d)) := by
  obtain ⟨k, j, rfl, hk, hj⟩ := inTree_iff.mp hx
  exact parentChecked_coord hd hk hj

theorem leftChecked_eq (hd : d ≤ 30) (hx : InTree d x) : leftChecked x = lift (left x) := by
  obtain ⟨k, j, rfl, hk, hj⟩ := inTree_iff.mp hx
  exact leftChecked_coord (index_lt_of_inTree hd hx)

theorem rightChecked_eq (hd : d ≤ 30) (hx : InTree d x) : rightChecked x = lift (right x) := by
  obtain ⟨k, j, rfl, hk, hj⟩ := inTree_iff.mp hx
  exact rightChecked_coord (index_lt_of_inTree hd hx) (by omega)

/-- Only the root has no parent, and a parent is in the tree. -/
theorem parent_inTree (hd : d ≤ 30) (hx : InTree d x) (h : parent x (2 ^ d) = .ok p) :
    InTree d p := by
  obtain ⟨k, j, rfl, hk, hj⟩ := inTree_iff.mp hx
  rcases Nat.eq_or_lt_of_le hk with rfl | hlt
  · obtain rfl : j = 0 := by simpa using hj
    rw [parent, if_neg, if_pos (root_two_pow hd).symm] at h
    · cases h
    · rw [nodeWidth_two_pow, coord]
      have := InOrder.index_lt_size.mpr ⟨hk, hj⟩
      omega
  · rw [parent_coord hd hlt hj] at h
    obtain rfl := Except.ok.inj h
    refine coord_inTree.mpr ⟨hlt, ?_⟩
    rw [show d - k = d - (k + 1) + 1 by omega, pow_succ] at hj
    omega

theorem siblingChecked_eq (hd : d ≤ 30) (hx : InTree d x) :
    siblingChecked x (2 ^ d) = lift (sibling x (2 ^ d)) := by
  rw [siblingChecked, sibling, parentChecked_eq hd hx]
  refine Signed32.bind_lift fun p hp => ?_
  have hp := parent_inTree hd hx hp
  split_ifs
  · exact rightChecked_eq hd hp
  · exact leftChecked_eq hd hp

theorem directPathLoopChecked_eq (hd : d ≤ 30) (r : ℤ) (fuel : ℕ) (hx : InTree d x) :
    directPathLoopChecked (2 ^ d) r fuel x = lift (directPathLoop (2 ^ d) r fuel x) := by
  induction fuel generalizing x with
  | zero => rfl
  | succ fuel ih =>
    rw [directPathLoopChecked, directPathLoop, parentChecked_eq hd hx]
    split_ifs
    · rfl
    · refine Signed32.bind_lift fun p hp => ?_
      rw [ih (parent_inTree hd hx hp)]
      exact Signed32.bind_lift fun _ _ => rfl

theorem directPathChecked_eq (hd : d ≤ 30) (hx : InTree d x) :
    directPathChecked x (2 ^ d) = lift (directPath x (2 ^ d)) := by
  unfold directPathChecked directPath
  dsimp only
  obtain ⟨h0, hlt⟩ := hx
  rw [if_neg (by omega), if_neg (by omega), rootChecked_eq hd, Signed32.ok_bind]
  exact directPathLoopChecked_eq hd _ 33 ⟨h0, hlt⟩

theorem directPath_inTree {path : List ℤ} (hd : d ≤ 30) (hx : InTree d x)
    (h : directPath x (2 ^ d) = .ok path) : ∀ y ∈ path, InTree d y := by
  obtain ⟨k, j, rfl, hk, hj⟩ := inTree_iff.mp hx
  rw [directPath_coord hd hk hj] at h
  obtain rfl := Except.ok.inj h
  intro y hy
  obtain ⟨m, hm, rfl⟩ := List.mem_map.mp hy
  rw [List.mem_range] at hm
  refine coord_inTree.mpr ⟨by omega, ?_⟩
  rw [Nat.div_lt_iff_lt_mul (Nat.two_pow_pos _), ← pow_add]
  rwa [show d - (k + m + 1) + (m + 1) = d - k by omega]

theorem copathChecked_eq (hd : d ≤ 30) (hx : InTree d x) :
    copathChecked x (2 ^ d) = lift (copath x (2 ^ d)) := by
  rw [copathChecked, copath, rootChecked_eq hd, Signed32.ok_bind]
  split_ifs
  · rfl
  · rw [directPathChecked_eq hd hx]
    refine Signed32.bind_lift fun path hpath => Signed32.mapM_lift fun y hy => ?_
    rcases List.mem_cons.mp (List.dropLast_subset _ hy) with rfl | hmem
    · exact siblingChecked_eq hd hx
    · exact siblingChecked_eq hd (directPath_inTree hd hx hpath y hmem)

theorem isAncestorChecked_eq (hd : d ≤ 30) (hx : InTree d x) (y : ℤ) :
    isAncestorChecked x y (nodeWidth (2 ^ d)) = lift (isAncestor x y (nodeWidth (2 ^ d))) := by
  rw [isAncestorChecked, isAncestor, nodeWidth_two_pow, leafWidth_size, directPathChecked_eq hd hx]
  exact Signed32.bind_lift fun _ _ => rfl

theorem left_inTree (hd : d ≤ 30) (hx : InTree d x) (h : left x = .ok p) : InTree d p := by
  obtain ⟨k, j, rfl, hk, hj⟩ := inTree_iff.mp hx
  have hlt := index_lt_of_inTree hd hx
  cases k with
  | zero =>
    rw [left, level_coord hlt] at h
    cases h
  | succ k =>
    rw [left_coord hlt] at h
    obtain rfl := Except.ok.inj h
    exact coord_inTree.mpr (InOrder.index_lt_size.mp (child_lt_size
      (InOrder.index_lt_size.mpr ⟨hk, hj⟩) (by omega)))

theorem right_inTree (hd : d ≤ 30) (hx : InTree d x) (h : right x = .ok p) : InTree d p := by
  obtain ⟨k, j, rfl, hk, hj⟩ := inTree_iff.mp hx
  have hlt := index_lt_of_inTree hd hx
  cases k with
  | zero =>
    rw [right, level_coord hlt] at h
    cases h
  | succ k =>
    rw [right_coord hlt (by omega)] at h
    obtain rfl := Except.ok.inj h
    exact coord_inTree.mpr (InOrder.index_lt_size.mp (child_lt_size
      (InOrder.index_lt_size.mpr ⟨hk, hj⟩) (by omega)))

theorem leafRangeLoopChecked_eq {child : ℤ → Except MlsError ℤ}
    {childChecked : ℤ → Except (Fault MlsError) ℤ}
    (heq : ∀ x, InTree d x → childChecked x = lift (child x))
    (hin : ∀ x c, InTree d x → child x = .ok c → InTree d c) (fuel : ℕ) (hx : InTree d x) :
    leafRangeLoopChecked childChecked fuel x = lift (leafRangeLoop child fuel x) := by
  induction fuel generalizing x with
  | zero => rfl
  | succ fuel ih =>
    rw [leafRangeLoopChecked, leafRangeLoop, heq x hx]
    split_ifs
    · rfl
    · exact Signed32.bind_lift fun c hc => ih (hin x c hx hc)

theorem leafRangeChecked_eq (hd : d ≤ 30) (hx : InTree d x) :
    leafRangeChecked x = lift (leafRange x) := by
  rw [leafRangeChecked, leafRange,
    leafRangeLoopChecked_eq (fun _ => leftChecked_eq hd) (fun _ _ => left_inTree hd) 33 hx,
    leafRangeLoopChecked_eq (fun _ => rightChecked_eq hd) (fun _ _ => right_inTree hd) 33 hx]
  refine Signed32.bind_lift fun lo _ => Signed32.bind_lift fun hi _ => ?_
  exact Signed32.bind_lift fun first _ => Signed32.bind_lift fun last _ => rfl

end

end WebcryptoMls
