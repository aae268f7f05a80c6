import WebcryptoMls.TreeGrowth

/-!
# Validation of unmerged leaves

What a joiner checks of the unmerged leaves of a tree it is given. The check
walks the direct path of every listed leaf, so it accepts every reachable tree
the bit operators can address; at the widest size an array has, the first walk
throws.
-/
namespace WebcryptoMls
open InOrder (index size)

/-- The round of `validateUnmergedLeaves` for one leaf a parent lists. -/
def validateUnmergedLeaf (tree : RatchetTree) (parentIndex : ℤ) (unmergedLeaf : ℕ) :
    Except MlsError (Option MlsError) := do
  let dp ← directPath (leafToNodeIndex unmergedLeaf) (leafWidth tree.length)
  let isLeafNode := match nodeAt tree (leafToNodeIndex unmergedLeaf) with
    | some (.leaf _) => true
    | _ => false
  if !isLeafNode || !dp.contains parentIndex then
    pure (some (validationError "Unmerged leaf did not represent a non-blank descendant leaf node"))
  else
    let between := dp.take (dp.idxOf parentIndex)
    pure (between.findSome? fun parentIdx =>
      match nodeAt tree parentIdx with
      | none => none
      | some (.leaf _) => some (internalError "Expected parent node")
      | some (.parent parent) =>
        if parent.unmergedLeaves.contains unmergedLeaf then none
        else some (validationError
          "non-blank intermediate node must list leaf node in its unmerged_leaves"))

def validateUnmergedLeaves (tree : RatchetTree) : Except MlsError (Option MlsError) :=
  firstError (fun (n, parentIndex) =>
    match n with
    | some (.parent parent) =>
      firstError (validateUnmergedLeaf tree (parentIndex : ℕ)) parent.unmergedLeaves
    | _ => pure none) tree.zipIdx

theorem validateUnmergedLeaves_eq_none {t : RatchetTree} :
    validateUnmergedLeaves t = .ok none ↔ ∀ k j p, slot t k j = some (.parent p) →
      ∀ u ∈ p.unmergedLeaves, validateUnmergedLeaf t (coord k j) u = .ok none := by
  have hmem : ∀ k j n, (some n, index k j) ∈ t.zipIdx ↔ slot t k j = some n := by
    intro k j n
    rw [List.mem_zipIdx_iff_getElem?, slot_eq_getElem?]
    cases t[index k j]? <;> simp
  rw [validateUnmergedLeaves, firstError_eq_none]
  constructor
  · intro h k j p hp
    exact firstError_eq_none.mp (h (some (.parent p), index k j) ((hmem k j _).mpr hp))
  · rintro h ⟨n, m⟩ hn
    obtain ⟨k, j, rfl⟩ := InOrder.exists_index m
    rcases n with _ | p | l
    · rfl
    · exact firstError_eq_none.mpr (h k j p ((hmem k j _).mp hn))
    · rfl

/-- The nodes between a leaf and its ancestor at level `k` are those of the levels
in between. -/
theorem take_leafPath {d i k : ℕ} (hk : k < d) :
    (leafPath d i).take ((leafPath d i).idxOf (coord (k + 1) (i / 2 ^ (k + 1)))) = leafPath k i := by
  have hnodup : (leafPath d i).Nodup := by
    refine List.Nodup.map (fun a b h => ?_) List.nodup_range
    have := (coord_inj.mp h).1
    omega
  have hlen : k < (leafPath d i).length := by simp [leafPath, hk]
  have hget : (leafPath d i)[k] = coord (k + 1) (i / 2 ^ (k + 1)) := by simp [leafPath]
  rw [← hget, hnodup.idxOf_getElem k, leafPath, leafPath, ← List.map_take, List.take_range,
    Nat.min_eq_left hk.le]

theorem TreeInvariant.validateUnmergedLeaves {t : RatchetTree} {d : ℕ} (ht : TreeInvariant t)
    (hlen : t.length = size d) (hd : d ≤ 30) : validateUnmergedLeaves t = .ok none := by
  rw [validateUnmergedLeaves_eq_none]
  intro k j p hp u hu
  obtain ⟨hj, hne⟩ := ht.unmerged k j p u hp hu
  obtain ⟨n, hn⟩ := Option.ne_none_iff_exists'.mp hne
  obtain ⟨leaf, rfl⟩ := ht.typed.leaf u n hn
  have hud : u < 2 ^ d := InOrder.leaf_lt_size.mp (hlen ▸ index_lt_of_slot hn)
  have hkd := (InOrder.index_lt_size.mp (hlen ▸ index_lt_of_slot hp)).1
  have hk0 : k ≠ 0 := by
    rintro rfl
    obtain ⟨l, hl⟩ := ht.typed.leaf j _ hp
    cases hl
  obtain ⟨k, rfl⟩ := Nat.exists_eq_succ_of_ne_zero hk0
  subst hj
  have hdp : directPath (coord 0 u) (2 ^ d) = .ok (leafPath d u) := directPath_leaf hd hud
  have hmem : (leafPath d u).contains (coord (k + 1) (u / 2 ^ (k + 1))) = true := by
    rw [List.contains_iff_mem, mem_leafPath]
    exact ⟨by omega, hkd, rfl⟩
  simp only [validateUnmergedLeaf, leafToNodeIndex_eq, hlen, leafWidth_size, hdp, ok_bind,
    nodeAt_coord, hn, Nat.succ_eq_add_one, hmem, Bool.not_true, Bool.or_self, Bool.false_eq_true,
    if_false, take_leafPath hkd]
  -- every node between lists the leaf
  have hnone : ∀ x ∈ leafPath k u, (match nodeAt t x with
      | none => none
      | some (.leaf _) => some (internalError "Expected parent node")
      | some (.parent parent) =>
        if parent.unmergedLeaves.contains u then none
        else some (validationError
          "non-blank intermediate node must list leaf node in its unmerged_leaves")) = none := by
    intro x hx
    obtain ⟨m, hm, rfl⟩ := List.mem_map.mp hx
    have hmk := List.mem_range.mp hm
    rw [nodeAt_coord]
    cases hs : slot t (m + 1) (u / 2 ^ (m + 1)) with
    | none => rfl
    | some n =>
      obtain ⟨q, rfl⟩ := ht.typed.parent m _ n hs
      have hq := ht.between (k + 1) _ p u (m + 1) q hp hu (by omega) hs
      simp [hq]
  rw [List.findSome?_eq_none_iff.mpr hnone]
  rfl

/-- The shape of every reachable tree, its right half, and what its parents list
as unmerged; a tree below `2 ^ 31` nodes is accepted by a joiner for it. -/
theorem reachable_representation {t : RatchetTree} (ht : Reachable t) :
    (∃ d, t.length = 2 ^ (d + 1) - 1) ∧
    (∀ k j node, slot t k j = some node →
      (k = 0 ∧ ∃ leaf, node = .leaf leaf) ∨ (0 < k ∧ ∃ p, node = .parent p)) ∧
    (t.length = 1 ∨ ∃ n node, t.length / 2 < n ∧ t[n]? = some (some node)) ∧
    (∀ k j p, slot t k j = some (.parent p) → p.unmergedLeaves.Pairwise (· < ·) ∧
      ∀ u ∈ p.unmergedLeaves, u / 2 ^ k = j ∧ (∃ leaf, slot t 0 u = some (.leaf leaf)) ∧
        ∀ k' q, k' ≤ k → slot t k' (u / 2 ^ k') = some (.parent q) → u ∈ q.unmergedLeaves) ∧
    (t.length < 2 ^ 31 → validateUnmergedLeaves t = .ok none) := by
  obtain ⟨hinv, d, hg⟩ := ht.invariant
  refine ⟨⟨d, hg.length⟩, fun k j node hn => ?_, ?_, fun k j p hp => ⟨hinv.sorted k j p hp, ?_⟩, ?_⟩
  · cases k with
    | zero => exact .inl ⟨rfl, hinv.typed.leaf j node hn⟩
    | succ k => exact .inr ⟨by omega, hinv.typed.parent k j node hn⟩
  · refine hg.right.imp (fun h => by rw [hg.length, h]; rfl) ?_
    rintro ⟨i, hi, hne⟩
    obtain ⟨node, hn⟩ := Option.ne_none_iff_exists'.mp hne
    refine ⟨index 0 i, node, ?_, ?_⟩
    · have hs := InOrder.size_add_one d
      rw [hg.length, InOrder.index_zero]
      cases d with
      | zero => omega
      | succ d => rw [Nat.add_sub_cancel] at hi; rw [pow_succ, pow_succ] at hs; omega
    · rw [slot_eq_getElem?] at hn
      cases hget : t[index 0 i]? with
      | none => rw [hget] at hn; cases hn
      | some v => rw [hget, Option.join_some] at hn; rw [hn]
  · intro u hu
    obtain ⟨hj, hne⟩ := hinv.unmerged k j p u hp hu
    obtain ⟨n, hn⟩ := Option.ne_none_iff_exists'.mp hne
    obtain ⟨leaf, rfl⟩ := hinv.typed.leaf u n hn
    exact ⟨hj, ⟨leaf, hn⟩, fun k' q hk' hq => hinv.between k j p u k' q hp hu hk' hq⟩
  · intro hlt
    refine hinv.validateUnmergedLeaves hg.length ?_
    by_contra hgt
    have hs := size_mono (show 31 ≤ d by omega)
    rw [hg.length] at hlt
    have : size 31 = 2 ^ 32 - 1 := rfl
    omega

/-- The first of three members commits and then a fourth one joins, so the root lists it. -/
theorem reachable_representation_four : ∃ (created : CreatedPath plainSuite) (t : RatchetTree)
    (n : ℤ), plainPath threeLeaves = .ok created ∧ addLeafNode created.tree default = .ok (t, n) ∧
    (∃ d, t.length = 2 ^ (d + 1) - 1) ∧
    (∀ k j node, slot t k j = some node →
      (k = 0 ∧ ∃ leaf, node = .leaf leaf) ∨ (0 < k ∧ ∃ p, node = .parent p)) ∧
    (t.length = 1 ∨ ∃ n node, t.length / 2 < n ∧ t[n]? = some (some node)) ∧
    (∃ root, slot t 2 0 = some (.parent root) ∧ root.unmergedLeaves = [3] ∧
      root.unmergedLeaves.Pairwise (· < ·) ∧ ∃ leaf, slot t 0 3 = some (.leaf leaf)) ∧
    validateUnmergedLeaves t = .ok none := by
  have h : (do
      let created ← plainPath threeLeaves
      let joined ← addLeafNode created.tree default
      pure (joined.1.length, (slot joined.1 2 0).map Node.unmergedLeaves)) =
      Except.ok (7, some [3]) := by
    decide +kernel
  obtain ⟨created, hc, h⟩ := bind_eq_ok.mp h
  obtain ⟨⟨t, n⟩, hadd, h⟩ := bind_eq_ok.mp h
  obtain ⟨hlen, hlisted⟩ := Prod.mk.inj (Except.ok.inj h)
  obtain ⟨node, hnode, hlisted⟩ := Option.map_eq_some_iff.mp hlisted
  obtain ⟨hsize, htyped, hright, hlists, hvalid⟩ :=
    reachable_representation ((threeLeaves_reachable.createUpdatePath hc).addLeafNode hadd)
  obtain ⟨-, root, rfl⟩ := (htyped 2 0 node hnode).resolve_left (by simp)
  have hlisted : root.unmergedLeaves = [3] := hlisted
  obtain ⟨hsorted, hleaves⟩ := hlists 2 0 root hnode
  obtain ⟨-, hleaf, -⟩ := hleaves 3 (hlisted ▸ List.mem_singleton_self 3)
  exact ⟨created, t, n, hc, hadd, hsize, htyped, hright, ⟨root, hnode, hlisted, hsorted, hleaf⟩,
    hvalid (by rw [hlen]; decide)⟩

/-- In a tree of depth 31 the walk from a listed leaf throws, so the tree is refused. -/
theorem exists_reachable_refused :
    ∃ t, Reachable t ∧ validateUnmergedLeaves t ≠ .ok none := by
  obtain ⟨t, d, ht, hf, p, hp, hu⟩ := exists_wide_unmerged (P := Reachable) (.init default)
    (fun _ _ _ ht h => ht.addLeafNode h) (fun _ _ ht h => ht.createUpdatePath h)
    (show 4 ≤ 2 ^ 30 + 1 by omega) le_rfl
  refine ⟨t, ht, fun hok => ?_⟩
  have hd : d = 31 := by
    obtain ⟨-, d', hg⟩ := ht.invariant
    obtain rfl := InOrder.size_inj (hf.length.symm.trans hg.length)
    have hlast : slot t 0 (2 ^ 30) ≠ none := (hf.leaf _).mpr (by omega)
    obtain ⟨node, hn⟩ := Option.ne_none_iff_exists'.mp hlast
    have hlt := InOrder.leaf_lt_size.mp (hf.length ▸ index_lt_of_slot hn)
    have := (Nat.pow_lt_pow_iff_right (a := 2) (by omega)).mp hlt
    have := hg.depth
    omega
  have hwalk := validateUnmergedLeaves_eq_none.mp hok 2 0 p hp 3 hu
  obtain ⟨dp, hdp, -⟩ := bind_eq_ok.mp hwalk
  rw [hf.length, hd, leafWidth_size] at hdp
  exact directPath_widest _ _ hdp

end WebcryptoMls
