import WebcryptoMls.CheckedTreemath

/-!
# The tree the node indices describe

Where the bit operators can address all of its nodes, the functions of
`Treemath` are a perfect binary tree's: children and parents undo each other,
every walk ends at the root, leaf ranges nest as the nodes do, and the subtrees
beside a leaf's path divide the other leaves among them.
-/
namespace WebcryptoMls
open InOrder (index size)
open Signed32 (lift)

/-- Inclusive ranges among which the numbers below `n` are divided. -/
structure Partitions (ranges : List (ℕ × ℕ)) (n : ℕ) : Prop where
  nonempty : ∀ r ∈ ranges, r.1 ≤ r.2
  covers : ∀ l, l < n ↔ ∃ r ∈ ranges, r.1 ≤ l ∧ l ≤ r.2
  disjoint : ranges.Pairwise fun r s => ∀ l, r.1 ≤ l ∧ l ≤ r.2 → ¬(s.1 ≤ l ∧ l ≤ s.2)

/-- A range lies in another and is not all of it. -/
def ProperlyContains (outer inner : ℕ × ℕ) : Prop :=
  outer.1 ≤ inner.1 ∧ inner.2 ≤ outer.2 ∧ inner ≠ outer

/-- The second node is one level above the first. -/
def OneLevelUp (x y : ℤ) : Prop := ∃ k, level x = .ok k ∧ level y = .ok (k + 1)

/-- A checked run of every function does what the function does. -/
structure NeverOverflows (d : ℕ) : Prop where
  root : rootChecked (2 ^ d) = .ok (root (2 ^ d))
  level : ∀ x, InTree d x → levelChecked x = lift (level x)
  left : ∀ x, InTree d x → leftChecked x = lift (left x)
  right : ∀ x, InTree d x → rightChecked x = lift (right x)
  parent : ∀ x, InTree d x → parentChecked x (2 ^ d) = lift (parent x (2 ^ d))
  sibling : ∀ x, InTree d x → siblingChecked x (2 ^ d) = lift (sibling x (2 ^ d))
  directPath : ∀ x, InTree d x → directPathChecked x (2 ^ d) = lift (directPath x (2 ^ d))
  copath : ∀ x, InTree d x → copathChecked x (2 ^ d) = lift (copath x (2 ^ d))
  isAncestor : ∀ x y, InTree d x → InTree d y →
    isAncestorChecked x y (nodeWidth (2 ^ d)) = lift (isAncestor x y (nodeWidth (2 ^ d)))
  leafRange : ∀ x, InTree d x → leafRangeChecked x = lift (leafRange x)

/-- The functions on node indices are those of the perfect tree with `2 ^ d` leaves. -/
structure PerfectTree (d : ℕ) : Prop where
  parent_child : ∀ x, InTree d x → isLeaf x = false → ∃ l r, left x = .ok l ∧ right x = .ok r ∧
    parent l (2 ^ d) = .ok x ∧ parent r (2 ^ d) = .ok x
  sibling_sibling : ∀ x, InTree d x → x ≠ root (2 ^ d) → ∃ y, sibling x (2 ^ d) = .ok y ∧
    InTree d y ∧ y ≠ root (2 ^ d) ∧ y ≠ x ∧ sibling y (2 ^ d) = .ok x
  child_parent : ∀ x, InTree d x → x ≠ root (2 ^ d) → ∃ p, parent x (2 ^ d) = .ok p ∧
    (left p = .ok x ∨ right p = .ok x)
  directPath_ends : ∀ x, InTree d x → ∃ path, directPath x (2 ^ d) = .ok path ∧
    (x :: path).getLast? = some (root (2 ^ d)) ∧ (x :: path).IsChain OneLevelUp
  isAncestor_iff : ∀ x y, InTree d x → InTree d y → ∃ b inner outer,
    isAncestor x y (nodeWidth (2 ^ d)) = .ok b ∧ leafRange x = .ok inner ∧
    leafRange y = .ok outer ∧ (b = true ↔ ProperlyContains outer inner)
  copath_partitions : ∀ i < 2 ^ d, ∃ nodes ranges, copath (leafToNodeIndex i) (2 ^ d) = .ok nodes ∧
    nodes.mapM leafRange = .ok ranges ∧ Partitions ((i, i) :: ranges) (2 ^ d)
  neverOverflows : NeverOverflows d

section
variable {d : ℕ} {x y : ℤ}

theorem child_of_inner (hd : d ≤ 30) (hx : InTree d x) (hinner : isLeaf x = false) :
    ∃ l r, left x = .ok l ∧ right x = .ok r ∧ parent l (2 ^ d) = .ok x ∧ parent r (2 ^ d) = .ok x := by
  obtain ⟨k, j, rfl, hk, hj⟩ := inTree_iff.mp hx
  cases k with
  | zero => simp at hinner
  | succ k =>
    have hlt := index_lt_of_inTree hd hx
    have hj' : 2 * j + 1 < 2 ^ (d - k) := by
      rw [show d - k = d - (k + 1) + 1 by omega, pow_succ]
      omega
    refine ⟨_, _, left_coord hlt, right_coord hlt (by omega), ?_, ?_⟩
    · rw [parent_coord hd hk (by omega), Nat.mul_div_cancel_left _ (by omega)]
    · rw [parent_coord hd hk hj', show (2 * j + 1) / 2 = j by omega]

/-- A node that is not the root is below it. -/
theorem level_lt_of_ne_root (hd : d ≤ 30) {k j : ℕ} (hx : InTree d (coord k j))
    (hne : coord k j ≠ root (2 ^ d)) : k < d := by
  obtain ⟨hk, hj⟩ := coord_inTree.mp hx
  refine Nat.lt_of_le_of_ne hk ?_
  rintro rfl
  rw [Nat.sub_self] at hj
  exact hne (by rw [root_two_pow hd, show j = 0 by omega])

theorem sibling_involution (hd : d ≤ 30) (hx : InTree d x) (hne : x ≠ root (2 ^ d)) :
    ∃ y, sibling x (2 ^ d) = .ok y ∧ InTree d y ∧ y ≠ root (2 ^ d) ∧ y ≠ x ∧
      sibling y (2 ^ d) = .ok x := by
  obtain ⟨k, j, rfl, hk, hj⟩ := inTree_iff.mp hx
  have hlt := level_lt_of_ne_root hd hx hne
  have hsib : sib j < 2 ^ (d - k) := by
    rw [show d - k = d - (k + 1) + 1 by omega] at *
    exact sib_lt hj
  refine ⟨coord k (sib j), sibling_coord hd hlt hj, coord_inTree.mpr ⟨hk, hsib⟩, ?_, ?_, ?_⟩
  · rw [root_two_pow hd, Ne, coord_inj]
    omega
  · simpa only [Ne, coord_inj, true_and] using sib_ne j
  · rw [sibling_coord hd hlt hsib, sib_sib]

theorem child_of_parent (hd : d ≤ 30) (hx : InTree d x) (hne : x ≠ root (2 ^ d)) :
    ∃ p, parent x (2 ^ d) = .ok p ∧ (left p = .ok x ∨ right p = .ok x) := by
  obtain ⟨k, j, rfl, hk, hj⟩ := inTree_iff.mp hx
  have hlt := level_lt_of_ne_root hd hx hne
  have hparent := parent_coord hd hlt hj
  have hp := index_lt_of_inTree hd (parent_inTree hd hx hparent)
  refine ⟨_, hparent, ?_⟩
  rcases Nat.mod_two_eq_zero_or_one j with h | h
  · left
    rw [left_coord hp, show 2 * (j / 2) = j by omega]
  · right
    rw [right_coord hp (by omega), show 2 * (j / 2) + 1 = j by omega]

/-- Each step of a path climbs one level, and the last is to the root. -/
theorem pathOf_ends (hd : d ≤ 30) (n : ℕ) {k j : ℕ} (hk : k + n = d) (hj : j < 2 ^ n) :
    (coord k j :: pathOf d k j).getLast? = some (root (2 ^ d)) ∧
      (coord k j :: pathOf d k j).IsChain OneLevelUp := by
  induction n generalizing k j with
  | zero =>
    obtain rfl : k = d := hk
    obtain rfl : j = 0 := by simpa using hj
    simp [pathOf, root_two_pow hd]
  | succ n ih =>
    have hj' : j / 2 < 2 ^ n := by
      rw [pow_succ] at hj
      omega
    have hx : InTree d (coord k j) := coord_inTree.mpr ⟨by omega, by rwa [show d - k = n + 1 by omega]⟩
    have hp : InTree d (coord (k + 1) (j / 2)) :=
      coord_inTree.mpr ⟨by omega, by rwa [show d - (k + 1) = n by omega]⟩
    have hstep : OneLevelUp (coord k j) (coord (k + 1) (j / 2)) :=
      ⟨k, level_coord (index_lt_of_inTree hd hx), level_coord (index_lt_of_inTree hd hp)⟩
    obtain ⟨hlast, hchain⟩ := ih (show k + 1 + n = d by omega) hj'
    rw [pathOf_succ (by omega)]
    exact ⟨by rwa [List.getLast?_cons_cons], .cons_cons hstep hchain⟩

theorem directPath_climbs (hd : d ≤ 30) (hx : InTree d x) :
    ∃ path, directPath x (2 ^ d) = .ok path ∧ (x :: path).getLast? = some (root (2 ^ d)) ∧
      (x :: path).IsChain OneLevelUp := by
  obtain ⟨k, j, rfl, hk, hj⟩ := inTree_iff.mp hx
  exact ⟨_, directPath_coord hd hk hj, pathOf_ends hd (d - k) (by omega) hj⟩

/-- The leaves below node `j` of level `k`. -/
def leavesBelow (k j : ℕ) : ℕ × ℕ := (2 ^ k * j, 2 ^ k * (j + 1) - 1)

theorem mem_leavesBelow {k j l : ℕ} :
    (leavesBelow k j).1 ≤ l ∧ l ≤ (leavesBelow k j).2 ↔ l / 2 ^ k = j := mem_leafRange_iff

theorem leavesBelow_le (k j : ℕ) : (leavesBelow k j).1 ≤ (leavesBelow k j).2 := by
  have h := (mem_leavesBelow (l := 2 ^ k * j)).mpr (Nat.mul_div_cancel_left j (Nat.two_pow_pos k))
  exact h.1.trans h.2

theorem leafRange_eq (hd : d ≤ 30) {k j : ℕ} (hx : InTree d (coord k j)) :
    leafRange (coord k j) = .ok (leavesBelow k j) :=
  leafRange_coord hd (InOrder.index_lt_size.mpr (coord_inTree.mp hx))

theorem leavesBelow_width (k j : ℕ) : (leavesBelow k j).2 + 1 = (leavesBelow k j).1 + 2 ^ k := by
  have hp := Nat.two_pow_pos k
  have he : 2 ^ k * (j + 1) = 2 ^ k * j + 2 ^ k := by ring
  simp only [leavesBelow]
  omega

/-- The leaves of one node are some but not all of another's below a proper ancestor. -/
theorem properlyContains_iff {k j k' j' : ℕ} :
    ProperlyContains (leavesBelow k' j') (leavesBelow k j) ↔ k < k' ∧ j / 2 ^ (k' - k) = j' := by
  have hfirst := mem_leavesBelow.mp ⟨le_refl _, leavesBelow_le k j⟩
  have hlast := mem_leavesBelow.mp ⟨leavesBelow_le k j, le_refl _⟩
  have hw := leavesBelow_width k j
  have hw' := leavesBelow_width k' j'
  constructor
  · rintro ⟨hlo, hhi, hne⟩
    have hle : k ≤ k' := by
      by_contra hlt
      have := Nat.pow_lt_pow_right (a := 2) (by omega) (show k' < k by omega)
      omega
    have hj : j / 2 ^ (k' - k) = j' := by
      rw [← hfirst, InOrder.div_two_pow_sub hle]
      exact mem_leavesBelow.mp ⟨hlo, (leavesBelow_le k j).trans hhi⟩
    refine ⟨Nat.lt_of_le_of_ne hle ?_, hj⟩
    rintro rfl
    rw [Nat.sub_self, pow_zero, Nat.div_one] at hj
    exact hne (by rw [hj])
  · rintro ⟨hlt, hj⟩
    rw [← hfirst, InOrder.div_two_pow_sub hlt.le] at hj
    have hj' : (leavesBelow k j).2 / 2 ^ k' = j' := by
      rw [← hj]
      exact InOrder.ancestor_of_ancestor hlt.le (hlast.trans hfirst.symm)
    refine ⟨(mem_leavesBelow.mpr hj).1, (mem_leavesBelow.mpr hj').2, fun h => ?_⟩
    have := Nat.pow_lt_pow_right (a := 2) (by omega) hlt
    rw [h] at hw
    omega

theorem isAncestor_contains (hd : d ≤ 30) (hx : InTree d x) (hy : InTree d y) :
    ∃ b inner outer, isAncestor x y (nodeWidth (2 ^ d)) = .ok b ∧ leafRange x = .ok inner ∧
      leafRange y = .ok outer ∧ (b = true ↔ ProperlyContains outer inner) := by
  obtain ⟨k, j, rfl, hk, hj⟩ := inTree_iff.mp hx
  obtain ⟨k', j', rfl, hk', -⟩ := inTree_iff.mp hy
  refine ⟨decide (k < k' ∧ j / 2 ^ (k' - k) = j'), _, _, ?_, leafRange_eq hd hx,
    leafRange_eq hd hy, ?_⟩
  · rw [nodeWidth_two_pow, isAncestor_coord hd hk hj hk']
  · rw [decide_eq_true_eq, properlyContains_iff]

/-- The subtrees beside the path of a leaf, with the leaf, hold every leaf once. -/
theorem beside_path_partitions {i : ℕ} (hi : i < 2 ^ d) :
    Partitions ((i, i) :: (List.range d).map fun m => leavesBelow m (sib (i / 2 ^ m))) (2 ^ d) where
  nonempty := by
    simp only [List.forall_mem_cons, List.forall_mem_map, le_refl, true_and]
    exact fun m _ => leavesBelow_le m _
  covers l := by
    simp only [List.exists_mem_cons_iff, ← le_antisymm_iff, List.mem_map, List.mem_range,
      exists_exists_and_eq_and, mem_leavesBelow]
    constructor
    · intro hl
      by_cases hli : l = i
      · exact .inl hli.symm
      · exact .inr (exists_branch hi hl hli)
    · rintro (rfl | ⟨m, hm, hsib⟩)
      · exact hi
      · have htop : l / 2 ^ d = i / 2 ^ d :=
          InOrder.ancestor_of_ancestor (show m + 1 ≤ d by omega) ((branch_iff hsib).mpr le_rfl)
        rw [InOrder.div_two_pow_eq_zero hi] at htop
        exact (Nat.div_eq_zero_iff_lt (Nat.two_pow_pos d)).mp htop
  disjoint := by
    simp only [List.pairwise_cons, List.forall_mem_map, List.pairwise_map, mem_leavesBelow]
    refine ⟨fun m _ l hl hsib => ?_, List.pairwise_lt_range.imp fun hlt l hsib hsib' => ?_⟩
    · obtain rfl : l = i := by omega
      exact sib_ne _ hsib.symm
    · have hle := (branch_iff hsib').mp ((branch_iff hsib).mpr le_rfl)
      omega

theorem copath_divides {i : ℕ} (hd : d ≤ 30) (hi : i < 2 ^ d) :
    ∃ nodes ranges, copath (leafToNodeIndex i) (2 ^ d) = .ok nodes ∧
      nodes.mapM leafRange = .ok ranges ∧ Partitions ((i, i) :: ranges) (2 ^ d) := by
  refine ⟨_, _, by rw [leafToNodeIndex_eq, copath_leaf hd hi], ?_, beside_path_partitions hi⟩
  rw [List.mapM_map]
  refine mapM_ok _ fun m hm => leafRange_eq hd ?_
  rw [List.mem_range] at hm
  refine coord_inTree.mpr ⟨by omega, ?_⟩
  have hlt := InOrder.div_two_pow_lt hm.le hi
  rw [show d - m = d - (m + 1) + 1 by omega] at *
  exact sib_lt hlt

theorem checked_functions_agree (hd : d ≤ 30) : NeverOverflows d where
  root := rootChecked_eq hd
  level _ hx := levelChecked_eq hd hx
  left _ hx := leftChecked_eq hd hx
  right _ hx := rightChecked_eq hd hx
  parent _ hx := parentChecked_eq hd hx
  sibling _ hx := siblingChecked_eq hd hx
  directPath _ hx := directPathChecked_eq hd hx
  copath _ hx := copathChecked_eq hd hx
  isAncestor _ y hx _ := isAncestorChecked_eq hd hx y
  leafRange _ hx := leafRangeChecked_eq hd hx

end

/-- The node counts below `2 ^ 31` are those of at most 30 levels above the leaves. -/
theorem depth_le {d : ℕ} (h : nodeWidth (2 ^ d) < 2 ^ 31) : d ≤ 30 := by
  rw [nodeWidth_two_pow] at h
  have hs := InOrder.size_add_one d
  by_contra hd
  have := Nat.pow_le_pow_right (n := 2) (by omega) (show 32 ≤ d + 1 by omega)
  omega

/-- The functions describe the perfect tree of every width whose nodes 31 bits can count. -/
theorem node_indices_describe_perfect_tree (d : ℕ) (h : nodeWidth (2 ^ d) < 2 ^ 31) :
    PerfectTree d where
  parent_child _ hx := child_of_inner (depth_le h) hx
  sibling_sibling _ hx := sibling_involution (depth_le h) hx
  child_parent _ hx := child_of_parent (depth_le h) hx
  directPath_ends _ hx := directPath_climbs (depth_le h) hx
  isAncestor_iff _ _ hx hy := isAncestor_contains (depth_le h) hx hy
  copath_partitions _ hi := copath_divides (depth_le h) hi
  neverOverflows := checked_functions_agree (depth_le h)

/-- The widest such tree. -/
theorem node_indices_describe_widest_tree : nodeWidth (2 ^ 30) < 2 ^ 31 ∧ PerfectTree 30 := by
  have h : nodeWidth (2 ^ 30) < 2 ^ 31 := by
    rw [nodeWidth_two_pow]
    exact size_lt_of_le le_rfl
  exact ⟨h, node_indices_describe_perfect_tree 30 h⟩

end WebcryptoMls
