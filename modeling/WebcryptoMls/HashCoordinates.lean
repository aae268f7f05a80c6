import WebcryptoMls.PathWrites

/-!
# Hashes by coordinate

The tree hash of a subtree by recursion on its level, over any assignment of
nodes to places, and the parent hash of a node by the level of its nearest
non-blank ancestor. Removing leaves is a change of the assignment; cutting the
array afterwards does not show in any hash.
-/
namespace WebcryptoMls
open InOrder (index size Below)

/-- An assignment of nodes to places. -/
abbrev Places := ℕ → ℕ → Option Node

def subtreeHashAt (s : Places) (h : Hash) : ℕ → ℕ → Except MlsError Bytes
  | 0, j => do
    let leafNode ← leafInPlace (s 0 j)
    let input ← encodeLeafNodeHashInput { leafIndex := j, leafNode := leafNode }
    pure (h.digest input)
  | k + 1, j => do
    let parentNode ← parentInPlace (s (k + 1) j)
    let leftHash ← subtreeHashAt s h k (2 * j)
    let rightHash ← subtreeHashAt s h k (2 * j + 1)
    let input ← encodeParentNodeHashInput
      { parentNode := parentNode, leftHash := leftHash, rightHash := rightHash }
    pure (h.digest input)

theorem subtreeHash_coord (t : RatchetTree) (h : Hash) (fuel k j : ℕ) (hf : k < fuel)
    (hlt : index k j < size 30) :
    subtreeHash t h fuel (coord k j) = subtreeHashAt (slot t) h k j := by
  induction k generalizing fuel j with
  | zero =>
    obtain ⟨fuel, rfl⟩ := Nat.exists_eq_succ_of_ne_zero (show fuel ≠ 0 by omega)
    rw [subtreeHash, subtreeHashAt, isLeaf_coord, nodeAt_coord, nodeToLeafIndex_coord]
    rfl
  | succ k ih =>
    obtain ⟨fuel, rfl⟩ := Nat.exists_eq_succ_of_ne_zero (show fuel ≠ 0 by omega)
    have h31 := size_lt_of_le (d := 30) le_rfl
    have hk := (InOrder.index_lt_size.mp hlt).1
    have hif : ¬ isLeaf (coord (k + 1) j) = true := by simp
    rw [subtreeHash, subtreeHashAt, if_neg hif, nodeAt_coord,
      left_coord (show index (k + 1) j < 2 ^ 31 by omega),
      right_coord (show index (k + 1) j < 2 ^ 31 by omega) hk,
      ← ih fuel (2 * j) (by omega) (child_lt_size hlt (by omega)),
      ← ih fuel (2 * j + 1) (by omega) (child_lt_size hlt (by omega))]
    rfl

theorem treeHash_coord {t : RatchetTree} {h : Hash} {k j : ℕ} (hlt : index k j < size 30) :
    treeHash t (coord k j) h = subtreeHashAt (slot t) h k j :=
  subtreeHash_coord t h 33 k j (by have := (InOrder.index_lt_size.mp hlt).1; omega) hlt

/-- A hash reads its own subtree only. -/
theorem subtreeHashAt_congr {s s' : Places} {h : Hash} {k j : ℕ}
    (heq : ∀ k' j', Below k' j' k j → s k' j' = s' k' j') :
    subtreeHashAt s h k j = subtreeHashAt s' h k j := by
  induction k generalizing j with
  | zero => rw [subtreeHashAt, subtreeHashAt, heq 0 j (InOrder.below_refl 0 j)]
  | succ k ih =>
    rw [subtreeHashAt, subtreeHashAt, heq (k + 1) j (InOrder.below_refl _ j),
      ih fun k' j' hb => heq k' j' (hb.trans (InOrder.below_left k j)),
      ih fun k' j' hb => heq k' j' (hb.trans (InOrder.below_right k j))]

/-! ## Removing leaves -/

/-- The parent without some of its unmerged leaves. -/
def ParentNode.without (removed : List ℕ) (p : ParentNode) : ParentNode :=
  { p with unmergedLeaves := p.unmergedLeaves.filter fun l => !removed.contains l }

def Node.without (removed : List ℕ) : Node → Node
  | .parent p => .parent (p.without removed)
  | .leaf l => .leaf l

/-- The assignment with leaves removed, also from the lists of unmerged leaves. -/
def Places.without (removed : List ℕ) (s : Places) : Places := fun k j =>
  if k = 0 ∧ j ∈ removed then none else (s k j).map (Node.without removed)

theorem slot_removeLeavesNode (t : RatchetTree) (removed : List ℕ) (k j : ℕ) :
    slot (t.zipIdx.map fun (n, nodeIndex) => removeLeavesNode removed nodeIndex n) k j =
      Places.without removed (slot t) k j := by
  rw [slot_eq_getElem?, List.getElem?_map, List.getElem?_zipIdx, Places.without, slot_eq_getElem?]
  cases ht : t[index k j]? with
  | none => split_ifs <;> rfl
  | some v =>
    cases v with
    | none => split_ifs <;> rfl
    | some n =>
      have hleaf : isLeaf ((index k j : ℕ) : ℤ) = decide (k = 0) := isLeaf_coord k j
      simp only [Option.map_some, Option.join_some, removeLeavesNode, hleaf, Nat.zero_add]
      by_cases hk : k = 0
      · subst hk
        have hdiv : index 0 j / 2 = j := by rw [InOrder.index_zero]; omega
        rw [hdiv]
        by_cases hj : j ∈ removed
        · simp [hj]
        · simp only [decide_true, Bool.true_and, List.contains_eq_mem, hj, decide_false,
            Bool.false_eq_true, if_false, and_false]
          cases n <;> simp [Node.without, ParentNode.without]
      · simp only [hk, decide_false, Bool.false_and, Bool.false_eq_true, if_false, false_and]
        cases n <;> simp [Node.without, ParentNode.without]

/-- The array is cut after the removal, which no place shows. -/
theorem slot_removeLeaves {t t' : RatchetTree} {removed : List ℕ}
    (h : removeLeaves t removed = .ok t') (k j : ℕ) :
    slot t' k j = Places.without removed (slot t) k j := by
  obtain ⟨d, -, -, hslot, -⟩ := condenseRatchetTreeAfterRemove_spec h
  rw [hslot, slot_removeLeavesNode]

theorem without_nil (s : Places) : Places.without [] s = s := by
  funext k j
  simp only [Places.without, List.not_mem_nil, and_false, if_false]
  cases s k j with
  | none => rfl
  | some n => cases n <;> simp [Node.without, ParentNode.without]

/-! ## The nearest non-blank ancestor -/

/-- The nearest non-blank ancestor of node `(k, j)` is the parent `p` of level `m`. -/
structure NextAbove (s : Places) (k j m : ℕ) (p : ParentNode) : Prop where
  lt : k < m
  node : s m (j / 2 ^ (m - k)) = some (.parent p)
  blank : ∀ m', k < m' → m' < m → s m' (j / 2 ^ (m' - k)) = none

theorem NextAbove.unique {s : Places} {k j m m' : ℕ} {p p' : ParentNode}
    (h : NextAbove s k j m p) (h' : NextAbove s k j m' p') : m = m' ∧ p = p' := by
  have hm : m = m' := by
    rcases Nat.lt_trichotomy m m' with hlt | heq | hlt
    · have := h'.blank m h.lt hlt
      rw [h.node] at this
      simp at this
    · exact heq
    · have := h.blank m' h'.lt hlt
      rw [h'.node] at this
      simp at this
  subst hm
  have := h.node.symm.trans h'.node
  exact ⟨rfl, by simpa using this⟩

/-- Where only parents stand above a node, one of them is the nearest or all are
blank. -/
theorem nextAbove_or_blank {s : Places} {k j : ℕ}
    (hs : ∀ m n, k < m → s m (j / 2 ^ (m - k)) = some n → ∃ p, n = .parent p) :
    (∃ m p, NextAbove s k j (m + 1) p) ∨ ∀ m, k < m → s m (j / 2 ^ (m - k)) = none := by
  classical
  by_cases hex : ∃ m, k < m ∧ s m (j / 2 ^ (m - k)) ≠ none
  · obtain ⟨hlt, hne⟩ := Nat.find_spec hex
    obtain ⟨n, hn⟩ := Option.ne_none_iff_exists'.mp hne
    obtain ⟨p, rfl⟩ := hs _ n hlt hn
    obtain ⟨m, hm⟩ := Nat.exists_eq_succ_of_ne_zero (show Nat.find hex ≠ 0 by omega)
    rw [Nat.succ_eq_add_one] at hm
    refine .inl ⟨m, p, by omega, by rw [← hm, hn], fun m' h1 h2 => ?_⟩
    by_contra hne'
    exact Nat.find_min hex (by omega) ⟨h1, hne'⟩
  · push Not at hex
    exact .inr hex

theorem Typed.nextAbove_or_blank {t : RatchetTree} (ht : Typed t) (k j : ℕ) :
    (∃ m p, NextAbove (slot t) k j (m + 1) p) ∨
      ∀ m, k < m → slot t m (j / 2 ^ (m - k)) = none := by
  refine WebcryptoMls.nextAbove_or_blank fun m n hm hn => ?_
  obtain ⟨m, rfl⟩ := Nat.exists_eq_succ_of_ne_zero (show m ≠ 0 by omega)
  exact ht.parent m _ n hn

section
variable {t : RatchetTree} {d k j : ℕ}

/-- One round of the climb to the root. -/
theorem traverseToRootLoop_step {T : Type} {f : ℤ → ParentNode → Option T} {fuel : ℕ}
    (hlen : t.length = size d) (hd : d ≤ 30) (hk : k < d) (hj : j < 2 ^ (d - k)) :
    traverseToRootLoop t (coord d 0) f (fuel + 1) (coord k j) =
      match slot t (k + 1) (j / 2) with
      | none => traverseToRootLoop t (coord d 0) f fuel (coord (k + 1) (j / 2))
      | some (.leaf _) => throw (internalError "Expected parent node")
      | some (.parent p) => match f (coord (k + 1) (j / 2)) p with
        | some result => pure (some (result, coord (k + 1) (j / 2)))
        | none => traverseToRootLoop t (coord d 0) f fuel (coord (k + 1) (j / 2)) := by
  have hne : coord k j ≠ coord d 0 := fun h => by have := (coord_inj.mp h).1; omega
  rw [traverseToRootLoop, if_neg hne, hlen, leafWidth_size, parent_coord hd hk hj]
  rfl

theorem half_lt {d k j : ℕ} (hk : k < d) (hj : j < 2 ^ (d - k)) : j / 2 < 2 ^ (d - (k + 1)) := by
  rw [show d - k = d - (k + 1) + 1 by omega, pow_succ] at hj
  omega

theorem quotient_succ {j m k : ℕ} (h : k < m) : j / 2 / 2 ^ (m - (k + 1)) = j / 2 ^ (m - k) := by
  rw [Nat.div_div_eq_div_mul, ← pow_succ', show m - (k + 1) + 1 = m - k by omega]

/-- The climb over blank nodes to the first non-blank one. -/
theorem traverseToRootLoop_next {T : Type} {f : ℤ → ParentNode → Option T} {m : ℕ}
    {p : ParentNode} {r : T} (hlen : t.length = size d) (hd : d ≤ 30) (hm : m ≤ d)
    (hj : j < 2 ^ (d - k)) (hnext : NextAbove (slot t) k j m p)
    (hf : f (coord m (j / 2 ^ (m - k))) p = some r) (fuel : ℕ) (hfuel : m < k + fuel) :
    traverseToRootLoop t (coord d 0) f fuel (coord k j) =
      .ok (some (r, coord m (j / 2 ^ (m - k)))) := by
  obtain ⟨hlt, hnode, hblank⟩ := hnext
  induction fuel generalizing k j with
  | zero => omega
  | succ fuel ih =>
    rw [traverseToRootLoop_step hlen hd (by omega) hj]
    rcases Nat.eq_or_lt_of_le (Nat.succ_le_of_lt hlt) with rfl | hlt'
    · have e : j / 2 ^ (k.succ - k) = j / 2 := by simp
      rw [e] at hnode hf ⊢
      rw [hnode]
      simp only [hf]
      rfl
    · have h1 := hblank (k + 1) (by omega) hlt'
      rw [Nat.add_sub_cancel_left, pow_one] at h1
      rw [h1]
      have hq := quotient_succ (j := j) hlt
      have := ih (k := k + 1) (j := j / 2) (half_lt (by omega) hj) (by rw [hq]; exact hf) (by omega)
        hlt' (by rw [hq]; exact hnode)
        (fun m' h1 h2 => by rw [quotient_succ (by omega)]; exact hblank m' (by omega) h2)
      rw [hq] at this
      exact this

/-- The climb over blank nodes to a blank root. -/
theorem traverseToRootLoop_blank {T : Type} {f : ℤ → ParentNode → Option T}
    (hlen : t.length = size d) (hd : d ≤ 30) (hk : k ≤ d) (hj : j < 2 ^ (d - k))
    (hblank : ∀ m, k < m → slot t m (j / 2 ^ (m - k)) = none) (fuel : ℕ) (hfuel : d < k + fuel) :
    traverseToRootLoop t (coord d 0) f fuel (coord k j) = .ok none := by
  induction fuel generalizing k j with
  | zero => omega
  | succ fuel ih =>
    rcases Nat.eq_or_lt_of_le hk with rfl | hlt
    · have hj0 : j = 0 := by simpa using hj
      rw [traverseToRootLoop, if_pos (by rw [hj0])]
      rfl
    · have h1 := hblank (k + 1) (by omega)
      rw [Nat.add_sub_cancel_left, pow_one] at h1
      rw [traverseToRootLoop_step hlen hd hlt hj, h1]
      exact ih hlt (half_lt hlt hj)
        (fun m hm => by rw [quotient_succ (by omega)]; exact hblank m (by omega)) (by omega)

theorem findFirstNonBlankAncestor_next {m : ℕ} {p : ParentNode} (hlen : t.length = size d)
    (hd : d ≤ 30) (hm : m ≤ d) (hj : j < 2 ^ (d - k)) (hnext : NextAbove (slot t) k j m p) :
    findFirstNonBlankAncestor t (coord k j) = .ok (coord m (j / 2 ^ (m - k))) := by
  rw [findFirstNonBlankAncestor, traverseToRoot, hlen, leafWidth_size, root_two_pow hd,
    traverseToRootLoop_next hlen hd hm hj hnext rfl 33 (by omega)]
  rfl

theorem findFirstNonBlankAncestor_blank (hlen : t.length = size d) (hd : d ≤ 30) (hk : k ≤ d)
    (hj : j < 2 ^ (d - k)) (hblank : ∀ m, k < m → slot t m (j / 2 ^ (m - k)) = none) :
    findFirstNonBlankAncestor t (coord k j) = .ok (coord d 0) := by
  rw [findFirstNonBlankAncestor, traverseToRoot, hlen, leafWidth_size, root_two_pow hd,
    traverseToRootLoop_blank hlen hd hk hj hblank 33 (by omega)]
  rfl

/-! ## Parent hashes -/

theorem calculateParentHash_root (h : Hash) (hlen : t.length = size d) (hd : d ≤ 30) :
    calculateParentHash t (coord d 0) h = .ok ([], none) := by
  unfold calculateParentHash
  rw [hlen, leafWidth_size, root_two_pow hd]
  exact if_pos rfl

/-- Below a blank path to the root there is nothing to bind. -/
theorem calculateParentHash_blank (h : Hash) (hlen : t.length = size d) (hd : d ≤ 30) (hk : k < d)
    (hj : j < 2 ^ (d - k)) (hblank : ∀ m, k < m → slot t m (j / 2 ^ (m - k)) = none) :
    calculateParentHash t (coord k j) h = .ok ([], some (coord d 0)) := by
  have hne : coord k j ≠ coord d 0 := fun h => by have := (coord_inj.mp h).1; omega
  have hroot : nodeAt t (coord d 0) = none := by
    rw [nodeAt_coord, ← hblank d hk, Nat.div_eq_of_lt hj]
  simp only [calculateParentHash, hlen, leafWidth_size, root_two_pow hd]
  rw [if_neg hne, findFirstNonBlankAncestor_blank hlen hd hk.le hj hblank, ok_bind,
    if_pos ⟨rfl, hroot⟩]
  rfl

/-- The parent hash that binds a node to the parent `p`, given the hash of the
other child of `p`. -/
def bindParent (h : Hash) (p : ParentNode) (originalSiblingTreeHash : Bytes) :
    Except MlsError Bytes := do
  let input ← encodeParentHashInput {
    encryptionKey := p.hpkePublicKey
    parentHash := p.parentHash
    originalSiblingTreeHash := originalSiblingTreeHash }
  pure (h.digest input)

theorem sibling_of_ancestor {m : ℕ} (hkm : k ≤ m) :
    sib (j / 2 ^ (m - k)) / 2 = j / 2 ^ (m + 1 - k) := by
  rw [sib_div_two, show m + 1 - k = m - k + 1 by omega, InOrder.div_two_pow_succ]

/-- A node's parent hash with respect to its nearest non-blank ancestor. -/
theorem calculateParentHash_next {h : Hash} {m : ℕ} {p : ParentNode} (hlen : t.length = size d)
    (hd : d ≤ 30) (hm : m + 1 ≤ d) (hj : j < 2 ^ (d - k))
    (hnext : NextAbove (slot t) k j (m + 1) p) :
    calculateParentHash t (coord k j) h = (do
      let original ← originalTree t p.unmergedLeaves
      let s ← treeHash original (coord m (sib (j / 2 ^ (m - k)))) h
      let ph ← bindParent h p s
      pure (ph, some (coord (m + 1) (j / 2 ^ (m + 1 - k))))) := by
  have hlt := hnext.lt
  have hne : coord k j ≠ coord d 0 := fun h => by have := (coord_inj.mp h).1; omega
  have hidx : index (m + 1) (j / 2 ^ (m + 1 - k)) < size d := by
    rw [← hlen]
    exact index_lt_of_slot hnext.node
  have h31 := size_lt_of_le hd
  have hsib : siblingBelow (coord k j) (coord (m + 1) (j / 2 ^ (m + 1 - k))) =
      .ok (coord m (sib (j / 2 ^ (m - k)))) := by
    unfold siblingBelow
    have hside := InOrder.index_lt_ancestor (k := k) (m := m + 1) (j := j) (by omega)
    have e : m + 1 - k - 1 = m - k := by omega
    rw [e] at hside
    have hq : j / 2 ^ (m + 1 - k) = j / 2 ^ (m - k) / 2 := by
      rw [show m + 1 - k = m - k + 1 by omega, InOrder.div_two_pow_succ]
    by_cases hpar : j / 2 ^ (m - k) % 2 = 0
    · rw [if_pos (by rw [coord, coord]; exact_mod_cast hside.mpr hpar),
        right_coord (by omega) (by omega), sib, if_pos hpar, hq,
        show 2 * (j / 2 ^ (m - k) / 2) + 1 = j / 2 ^ (m - k) + 1 by omega]
    · rw [if_neg (by rw [coord, coord]; exact_mod_cast mt hside.mp hpar), left_coord (by omega), sib,
        if_neg hpar, hq, show 2 * (j / 2 ^ (m - k) / 2) = j / 2 ^ (m - k) - 1 by omega]
  have hnotroot : ¬ (coord (m + 1) (j / 2 ^ (m + 1 - k)) = coord d 0 ∧
      nodeAt t (coord (m + 1) (j / 2 ^ (m + 1 - k))) = none) := by
    rw [nodeAt_coord, hnext.node]
    simp
  have hfind := findFirstNonBlankAncestor_next hlen hd hm hj hnext
  simp only [calculateParentHash, hlen, leafWidth_size, root_two_pow hd]
  rw [if_neg hne, hfind, ok_bind, if_neg hnotroot, hsib, ok_bind, nodeAt_coord, hnext.node]
  simp only [bindParent, bind_assoc, pure_bind]

end

/-! ## The parent hash of a node on a written path -/

/-- Above level `k` the path of leaf `i` holds parents without unmerged leaves. -/
def MergedAbove (t : RatchetTree) (i k : ℕ) : Prop :=
  ∀ m n, k < m → slot t m (i / 2 ^ m) = some n → ∃ p, n = .parent p ∧ p.unmergedLeaves = []

theorem not_below_sibling {i m k' j' : ℕ} (h : Below k' j' m (sib (i / 2 ^ m))) :
    i / 2 ^ k' ≠ j' := by
  intro hi
  exact sib_ne _ (h.leaf hi).symm

/-- A parent hash reads the nodes above and the subtrees beside the path only. -/
theorem calculateParentHash_congr {t t' : RatchetTree} {h : Hash} {d i k : ℕ}
    (hagree : AgreeAbove t' t i k) (hlen : t.length = size d) (hd : d ≤ 30) (hi : i < 2 ^ d)
    (hk : k ≤ d) (hmerged : MergedAbove t i k) :
    calculateParentHash t' (coord k (i / 2 ^ k)) h = calculateParentHash t (coord k (i / 2 ^ k)) h := by
  have hlen' : t'.length = size d := hagree.length.trans hlen
  rcases Nat.eq_or_lt_of_le hk with rfl | hlt
  · rw [InOrder.div_two_pow_eq_zero hi, calculateParentHash_root h hlen hd,
      calculateParentHash_root h hlen' hd]
  have hj := InOrder.div_two_pow_lt hk hi
  have hq : ∀ m, k < m → i / 2 ^ k / 2 ^ (m - k) = i / 2 ^ m := fun m hm =>
    InOrder.div_two_pow_sub hm.le
  have hsame : ∀ m, k < m →
      slot t' m (i / 2 ^ k / 2 ^ (m - k)) = slot t m (i / 2 ^ k / 2 ^ (m - k)) := fun m hm =>
    hagree.slot m _ (.inl hm)
  have hnext := nextAbove_or_blank (s := slot t) (k := k) (j := i / 2 ^ k) fun m n hm hn => by
    rw [hq m hm] at hn
    obtain ⟨p, hp, -⟩ := hmerged m n hm hn
    exact ⟨p, hp⟩
  rcases hnext with ⟨m, p, hnext⟩ | hblank
  · have hm : m + 1 ≤ d := (InOrder.index_lt_size.mp (hlen ▸ index_lt_of_slot hnext.node)).1
    have hnext' : NextAbove (slot t') k (i / 2 ^ k) (m + 1) p := by
      refine ⟨hnext.lt, (hsame _ hnext.lt).trans hnext.node, fun m' h1 h2 => ?_⟩
      rw [hsame m' h1, hnext.blank m' h1 h2]
    have hp := hnext.node
    rw [hq _ hnext.lt] at hp
    obtain ⟨p', hpp, hnil⟩ := hmerged _ _ hnext.lt hp
    rw [← Node.parent.inj hpp] at hnil
    have hkm := hnext.lt
    have hsib : index m (sib (i / 2 ^ k / 2 ^ (m - k))) < size 30 := by
      rw [InOrder.div_two_pow_sub (by omega)]
      exact lt_of_lt_of_le (sibling_lt_size (by omega) hi) (size_mono hd)
    rw [calculateParentHash_next hlen hd hm hj hnext, calculateParentHash_next hlen' hd hm hj hnext']
    simp only [originalTree, hnil, List.length_nil, if_true, pure_bind, treeHash_coord hsib]
    congr 1
    apply subtreeHashAt_congr
    intro k' j' hb
    rw [InOrder.div_two_pow_sub (by omega)] at hb
    exact hagree.slot k' j' (.inr (not_below_sibling hb))
  · rw [calculateParentHash_blank h hlen hd hlt hj hblank,
      calculateParentHash_blank h hlen' hd hlt hj fun m hm => by rw [hsame m hm, hblank m hm]]

/-- In the tree with the path written, the hashes are the ones computed on the way. -/
theorem HashedAt.calculateParentHash {t : RatchetTree} {h : Hash} {d i k : ℕ} {ph : Bytes}
    (hh : HashedAt h t i k ph) (hlen : t.length = size d) (hd : d ≤ 30) (hi : i < 2 ^ d)
    (hk : k ≤ d) (hmerged : MergedAbove t i k) :
    ∃ r, WebcryptoMls.calculateParentHash t (coord k (i / 2 ^ k)) h = .ok (ph, r) := by
  obtain ⟨mid, r, hagree, hcalc⟩ := hh
  exact ⟨r, by rw [← calculateParentHash_congr hagree hlen hd hi hk hmerged, hcalc]⟩

end WebcryptoMls
