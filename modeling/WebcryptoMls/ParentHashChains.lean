import WebcryptoMls.HashInvariant

/-!
# Chains of parent hashes

`verifyParentHashes` climbs from every leaf for as long as the stored parent
hash is the computed one and the node is the resolution of its side of the
parent, unmerged leaves aside. Below each side of a parent at most one node can
be that resolution; and two nodes on different sides cannot each carry a hash
over the other. So every parent is reached from below exactly once.
-/
namespace WebcryptoMls
open InOrder (index size Below)

/-! ## Members of a resolution -/

/-- The node at `(k, j)` is non-blank and nothing above it in the subtree is. -/
structure Topmost (t : RatchetTree) (k j m c : ℕ) (n : Node) : Prop where
  below : Below k j m c
  node : slot t k j = some n
  blank : ∀ k', k < k' → k' ≤ m → slot t k' (j / 2 ^ (k' - k)) = none

theorem Topmost.child {t : RatchetTree} {k j m q c : ℕ} {n : Node} (h : Topmost t k j m c n)
    (hc : c / 2 = q) (hq : slot t (m + 1) q = none) : Topmost t k j (m + 1) q n where
  below := h.below.trans (below_child hc)
  node := h.node
  blank k' h1 h2 := by
    rcases Nat.eq_or_lt_of_le h2 with rfl | h2
    · rw [(h.below.trans (below_child hc)).2, hq]
    · exact h.blank k' h1 (by omega)

/-- A resolution is the topmost nodes with the leaves they list. -/
theorem mem_resolutionAt {t : RatchetTree} (ht : Typed t) {m c : ℕ} {y : ℤ} :
    y ∈ resolutionAt t m c ↔ ∃ k j n, Topmost t k j m c n ∧
      (y = coord k j ∨ ∃ u ∈ n.unmergedLeaves, y = coord 0 u) := by
  induction m generalizing c with
  | zero =>
    rw [resolutionAt]
    constructor
    · intro h
      cases hs : slot t 0 c with
      | none => simp [hs] at h
      | some n =>
        simp only [hs, List.mem_singleton] at h
        exact ⟨0, c, n, ⟨InOrder.below_refl _ _, hs, fun k' h1 h2 => by omega⟩, .inl h⟩
    · rintro ⟨k, j, n, htop, hy⟩
      obtain ⟨rfl, rfl⟩ := InOrder.below_zero.mp htop.below
      obtain ⟨l, rfl⟩ := ht.leaf j n htop.node
      simp only [htop.node, List.mem_singleton]
      simpa [Node.unmergedLeaves] using hy
  | succ m ih =>
    rw [resolutionAt]
    cases hs : slot t (m + 1) c with
    | none =>
      simp only [List.mem_append, ih]
      constructor
      · rintro (⟨k, j, n, htop, hy⟩ | ⟨k, j, n, htop, hy⟩)
        · exact ⟨k, j, n, htop.child (by omega) hs, hy⟩
        · exact ⟨k, j, n, htop.child (by omega) hs, hy⟩
      · rintro ⟨k, j, n, htop, hy⟩
        rcases InOrder.below_succ.mp htop.below with ⟨rfl, rfl⟩ | hb | hb
        · rw [htop.node] at hs
          cases hs
        · exact .inl ⟨k, j, n, ⟨hb, htop.node, fun k' h1 h2 => htop.blank k' h1 (by omega)⟩, hy⟩
        · exact .inr ⟨k, j, n, ⟨hb, htop.node, fun k' h1 h2 => htop.blank k' h1 (by omega)⟩, hy⟩
    | some n₀ =>
      simp only [List.mem_cons, List.mem_map]
      constructor
      · intro h
        refine ⟨m + 1, c, n₀, ⟨InOrder.below_refl _ _, hs, fun k' h1 h2 => by omega⟩, ?_⟩
        rcases h with h | ⟨u, hu, rfl⟩
        · exact .inl h
        · exact .inr ⟨u, hu, rfl⟩
      · rintro ⟨k, j, n, htop, hy⟩
        obtain ⟨rfl, rfl⟩ : k = m + 1 ∧ j = c := by
          rcases Nat.eq_or_lt_of_le htop.below.1 with rfl | hlt
          · exact ⟨rfl, by simpa using htop.below.2⟩
          · have := htop.blank (m + 1) hlt le_rfl
            rw [htop.below.2, hs] at this
            cases this
        obtain rfl : n = n₀ := Option.some.inj (htop.node.symm.trans hs)
        rcases hy with hy | ⟨u, hu, rfl⟩
        · exact .inl hy
        · exact .inr ⟨u, hu, rfl⟩

/-- Above a non-blank leaf there is a topmost node. -/
theorem exists_topmost {t : RatchetTree} {m u : ℕ} {l : Node} (hu : slot t 0 u = some l) :
    ∃ k n, Topmost t k (u / 2 ^ k) m (u / 2 ^ m) n := by
  induction m with
  | zero =>
    exact ⟨0, l, InOrder.below_of_leaf le_rfl, by rw [pow_zero, Nat.div_one, hu],
      fun k' h1 h2 => by omega⟩
  | succ m ih =>
    cases hs : slot t (m + 1) (u / 2 ^ (m + 1)) with
    | some n =>
      exact ⟨m + 1, n, InOrder.below_of_leaf le_rfl, hs, fun k' h1 h2 => by omega⟩
    | none =>
      obtain ⟨k, n, htop⟩ := ih
      exact ⟨k, n, htop.child (InOrder.div_two_pow_succ u m).symm hs⟩

section
variable {t : RatchetTree} (ht : Represented t)
include ht

theorem Represented.unmerged_below {k j u : ℕ} {n : Node} (hn : slot t k j = some n)
    (hu : u ∈ n.unmergedLeaves) : u / 2 ^ k = j ∧ slot t 0 u ≠ none := by
  cases n with
  | leaf l => simp [Node.unmergedLeaves] at hu
  | parent p => exact ht.unmerged k j p u hn hu

theorem Represented.resolution_below {m c : ℕ} {y : ℤ} (hy : y ∈ resolutionAt t m c) :
    ∃ k j, y = coord k j ∧ Below k j m c := by
  obtain ⟨k, j, n, htop, rfl | ⟨u, hu, rfl⟩⟩ := (mem_resolutionAt ht.typed).mp hy
  · exact ⟨k, j, rfl, htop.below⟩
  · have hj := (ht.unmerged_below htop.node hu).1
    exact ⟨0, u, rfl, (InOrder.below_leaf.mpr hj).trans htop.below⟩

theorem Represented.resolution_nodup (m c : ℕ) : (resolutionAt t m c).Nodup := by
  induction m generalizing c with
  | zero =>
    rw [resolutionAt]
    cases slot t 0 c <;> simp
  | succ m ih =>
    rw [resolutionAt]
    cases hs : slot t (m + 1) c with
    | none =>
      refine List.nodup_append.mpr ⟨ih _, ih _, fun y hy z hz hyz => ?_⟩
      subst hyz
      obtain ⟨k, j, rfl, hb⟩ := ht.resolution_below hy
      obtain ⟨k', j', heq, hb'⟩ := ht.resolution_below hz
      obtain ⟨rfl, rfl⟩ := coord_inj.mp heq
      have := hb.unique hb'
      omega
    | some n =>
      refine List.nodup_cons.mpr ⟨fun hmem => ?_, ?_⟩
      · obtain ⟨u, -, hu⟩ := List.mem_map.mp hmem
        have := (coord_inj.mp hu).1
        omega
      · refine List.Nodup.map (fun a b h => (coord_inj.mp h).2) ?_
        cases n with
        | leaf l => exact List.nodup_nil
        | parent p => exact (ht.sorted _ _ p hs).imp Nat.ne_of_lt

end

/-! ## The resolution criterion -/

/-- The node is in the resolution of its side, and the rest of that resolution is
the parent's unmerged leaves below that side. -/
structure Criterion (t : RatchetTree) (p : ParentNode) (k j m c : ℕ) : Prop where
  mem : coord k j ∈ resolutionAt t m c
  rest : ∀ y, (∃ u ∈ p.unmergedLeaves, u / 2 ^ m = c ∧ y = coord 0 u) ↔
    y ∈ resolutionAt t m c ∧ y ≠ coord k j

theorem sameNodeIndexSet_iff {a b : List ℤ} (ha : a.Nodup) (hb : b.Nodup) :
    sameNodeIndexSet a b = true ↔ ∀ y, y ∈ a ↔ y ∈ b := by
  unfold sameNodeIndexSet
  split_ifs with hlen
  · simp only [false_iff]
    exact fun h => hlen ((List.perm_ext_iff_of_nodup ha hb).mpr h).length_eq
  · simp only [List.all_eq_true, List.contains_iff_mem]
    constructor
    · intro h
      have hperm := (List.subperm_of_subset hb h).perm_of_length_le (by omega)
      exact fun y => hperm.mem_iff.symm
    · exact fun h y hy => (h y).mpr hy

theorem satisfiesResolutionCriterion_coord {t : RatchetTree} {d k j m q c : ℕ} {p : ParentNode}
    (ht : TreeInvariant t) (hlen : t.length = size d) (hd : d ≤ 30)
    (hp : slot t (m + 1) q = some (.parent p)) (hc : c / 2 = q) :
    ∃ b, satisfiesResolutionCriterion t (coord k j) (coord (m + 1) q) (coord m c) = .ok b ∧
      (b = true ↔ Criterion t p k j m c) := by
  have hlt : index m c < size 30 :=
    lt_of_lt_of_le (child_lt_size (hlen ▸ index_lt_of_slot hp) (by omega)) (size_mono hd)
  simp only [satisfiesResolutionCriterion, nodeAt_coord, hp, resolution_coord hlt, ok_bind,
    leafRange_coord le_rfl hlt]
  by_cases hmem : coord k j ∈ resolutionAt t m c
  · have hmap : ∀ l : List ℕ, l.map leafToNodeIndex = l.map (coord 0) := fun l =>
      List.map_congr_left fun i _ => leafToNodeIndex_eq i
    have hnodup : (p.unmergedLeaves.filter fun i =>
        2 ^ m * c ≤ i && i ≤ 2 ^ m * (c + 1) - 1).Nodup :=
      ((ht.sorted _ _ p hp).imp Nat.ne_of_lt).filter _
    refine ⟨_, by rw [if_neg (by simpa using hmem)]; rfl, ?_⟩
    rw [hmap, sameNodeIndexSet_iff (hnodup.map fun a b h => (coord_inj.mp h).2)
      ((ht.represented.resolution_nodup m c).filter _)]
    have hiff : ∀ y, y ∈ (p.unmergedLeaves.filter fun i =>
        2 ^ m * c ≤ i && i ≤ 2 ^ m * (c + 1) - 1).map (coord 0) ↔
        ∃ u ∈ p.unmergedLeaves, u / 2 ^ m = c ∧ y = coord 0 u := by
      intro y
      simp only [List.mem_map, List.mem_filter, Bool.and_eq_true, decide_eq_true_eq,
        mem_leafRange_iff]
      constructor
      · rintro ⟨u, ⟨hu, huc⟩, rfl⟩
        exact ⟨u, hu, huc, rfl⟩
      · rintro ⟨u, hu, huc, rfl⟩
        exact ⟨u, ⟨hu, huc⟩, rfl⟩
    simp only [hiff, List.mem_filter, ne_eq, decide_not, Bool.not_eq_true', decide_eq_false_iff_not]
    exact ⟨fun h => ⟨hmem, h⟩, fun h => h.rest⟩
  · refine ⟨false, by rw [if_pos (by simpa using hmem)]; rfl, by simp, fun h => absurd h.mem hmem⟩

/-- Below one side of a parent at most one node meets the criterion. -/
theorem Criterion.unique {t : RatchetTree} {p : ParentNode} {k j k' j' m c : ℕ}
    (h : Criterion t p k j m c) (h' : Criterion t p k' j' m c) : k = k' ∧ j = j' := by
  by_contra hne
  have hmem := (h.rest (coord k' j')).mpr ⟨h'.mem, fun heq => hne ?_⟩
  · obtain ⟨u, hu, huc, hy⟩ := hmem
    exact ((h'.rest (coord k' j')).mp ⟨u, hu, huc, hy⟩).2 rfl
  · obtain ⟨h1, h2⟩ := coord_inj.mp heq
    exact ⟨h1.symm, h2.symm⟩

section
variable {t : RatchetTree} {p : ParentNode} {k j m q c : ℕ}

/-- A node that meets the criterion is not an unmerged leaf. -/
theorem Criterion.not_unmerged (h : Criterion t p k j m c) (hb : Below k j m c) :
    ¬ (k = 0 ∧ j ∈ p.unmergedLeaves) := by
  rintro ⟨rfl, hj⟩
  exact ((h.rest (coord 0 j)).mp ⟨j, hj, InOrder.below_leaf.mp hb, rfl⟩).2 rfl

theorem getParentHash_without (U : List ℕ) (n : Node) :
    getParentHash (n.without U) = getParentHash n := by
  cases n <;> rfl

theorem originalPlaces_eq_some {n : Node} (h : originalPlaces t p k j = some n) :
    ∃ n₀, slot t k j = some n₀ ∧ n = n₀.without p.unmergedLeaves ∧
      ¬ (k = 0 ∧ j ∈ p.unmergedLeaves) := by
  rw [originalPlaces, Places.without] at h
  split_ifs at h with hrem
  obtain ⟨n₀, hn₀, rfl⟩ := Option.map_eq_some_iff.mp h
  exact ⟨n₀, hn₀, rfl, hrem⟩

theorem originalPlaces_of_slot {n : Node} (h : slot t k j = some n)
    (hrem : ¬ (k = 0 ∧ j ∈ p.unmergedLeaves)) :
    originalPlaces t p k j = some (n.without p.unmergedLeaves) := by
  rw [originalPlaces, Places.without, if_neg hrem, h]
  rfl

/-- A node that was the whole resolution of its side meets the criterion ever after. -/
theorem SoleResolution.criterion (ht : TreeInvariant t)
    (hp : slot t (m + 1) q = some (.parent p))
    (h : SoleResolution (originalPlaces t p) k j m c) : Criterion t p k j m c := by
  obtain ⟨n, hn, hnil⟩ := h.node
  obtain ⟨n₀, hn₀, rfl, hrem⟩ := originalPlaces_eq_some hn
  have htop : Topmost t k j m c n₀ := by
    refine ⟨h.below, hn₀, fun k' h1 h2 => ?_⟩
    by_contra hne
    obtain ⟨n', hn'⟩ := Option.ne_none_iff_exists'.mp hne
    have horig := originalPlaces_of_slot (p := p) hn' (by omega)
    have hup : Below k' (j / 2 ^ (k' - k)) m c := by
      refine ⟨h2, ?_⟩
      rw [InOrder.div_two_pow_add, show k' - k + (m - k') = m - k by omega, h.below.2]
    have := (h.only _ _ hup (by rw [horig]; simp)).1
    omega
  refine ⟨(mem_resolutionAt ht.typed).mpr ⟨k, j, n₀, htop, .inl rfl⟩, fun y => ⟨?_, ?_⟩⟩
  · rintro ⟨u, hu, huc, rfl⟩
    obtain ⟨-, hne⟩ := ht.unmerged _ _ p u hp hu
    obtain ⟨l, hl⟩ := Option.ne_none_iff_exists'.mp hne
    obtain ⟨k', n', htop'⟩ := exists_topmost (m := m) hl
    rw [huc] at htop'
    refine ⟨(mem_resolutionAt ht.typed).mpr ⟨k', _, n', htop', ?_⟩, fun heq => ?_⟩
    · cases n' with
      | leaf l' =>
        cases k' with
        | zero => exact .inl (by rw [pow_zero, Nat.div_one])
        | succ k' =>
          obtain ⟨p', hp'⟩ := ht.typed.parent _ _ _ htop'.node
          cases hp'
      | parent p' =>
        exact .inr ⟨u, ht.between _ _ p u k' p' hp hu
          (by have := htop'.below.1; omega) htop'.node, rfl⟩
    · obtain ⟨rfl, rfl⟩ := coord_inj.mp heq
      exact hrem ⟨rfl, hu⟩
  · rintro ⟨hy, hne⟩
    obtain ⟨k', j', n', htop', hy⟩ := (mem_resolutionAt ht.typed).mp hy
    by_cases hgone : k' = 0 ∧ j' ∈ p.unmergedLeaves
    · -- an unmerged leaf on its own
      obtain ⟨rfl, hj'⟩ := hgone
      obtain ⟨l, rfl⟩ := ht.typed.leaf j' n' htop'.node
      obtain rfl : y = coord 0 j' := by simpa [Node.unmergedLeaves] using hy
      exact ⟨j', hj', InOrder.below_leaf.mp htop'.below, rfl⟩
    · -- otherwise it was there, so it is the sole node itself
      have horig := originalPlaces_of_slot htop'.node hgone
      have hb := h.only k' j' htop'.below (by rw [horig]; simp)
      obtain ⟨rfl, rfl⟩ : k' = k ∧ j' = j := by
        rcases Nat.eq_or_lt_of_le hb.1 with rfl | hlt
        · exact ⟨rfl, by simpa using hb.2⟩
        · have := htop'.blank k hlt h.below.1
          rw [hb.2, hn₀] at this
          cases this
      obtain rfl : n' = n₀ := Option.some.inj (htop'.node.symm.trans hn₀)
      obtain ⟨u, hu, rfl⟩ := hy.resolve_left hne
      have huk := (ht.represented.unmerged_below hn₀ hu).1
      refine ⟨u, ?_, h.below.leaf huk, rfl⟩
      cases n' with
      | leaf l => simp [Node.unmergedLeaves] at hu
      | parent p' =>
        by_contra hnot
        have : u ∈ ((Node.parent p').without p.unmergedLeaves).unmergedLeaves := by
          simp only [Node.without, Node.unmergedLeaves, ParentNode.without, List.mem_filter]
          exact ⟨hu, by simpa using hnot⟩
        rw [hnil] at this
        simp at this

end

end WebcryptoMls
