import WebcryptoMls.TreeOperations

/-!
# Resolutions and filtered direct paths

The resolution of a node by recursion on its level, and the filtered direct path
of a leaf as the levels whose copath child has a non-empty resolution.
-/
namespace WebcryptoMls
open InOrder (index size Below)

/-- The leaves a node lists as unmerged; a leaf node lists none. -/
def Node.unmergedLeaves : Node → List ℕ
  | .parent p => p.unmergedLeaves
  | .leaf _ => []

/-- The resolution of the `j`-th node of level `k`. -/
def resolutionAt (t : RatchetTree) : ℕ → ℕ → List ℤ
  | 0, j => match slot t 0 j with
    | none => []
    | some _ => [coord 0 j]
  | k + 1, j => match slot t (k + 1) j with
    | none => resolutionAt t k (2 * j) ++ resolutionAt t k (2 * j + 1)
    | some n => coord (k + 1) j :: n.unmergedLeaves.map (coord 0)

theorem resolutionLoop_coord (t : RatchetTree) (fuel k j : ℕ) (hf : k < fuel)
    (h : index k j < size 30) : resolutionLoop t fuel (coord k j) = .ok (resolutionAt t k j) := by
  have hmap : ∀ l : List ℕ, l.map leafToNodeIndex = l.map (coord 0) := fun l =>
    List.map_congr_left fun i _ => leafToNodeIndex_eq i
  induction k generalizing fuel j with
  | zero =>
    obtain ⟨fuel, rfl⟩ := Nat.exists_eq_succ_of_ne_zero (show fuel ≠ 0 by omega)
    rw [resolutionLoop, nodeAt_coord, resolutionAt]
    cases slot t 0 j <;> simp [pure, Except.pure]
  | succ k ih =>
    obtain ⟨fuel, rfl⟩ := Nat.exists_eq_succ_of_ne_zero (show fuel ≠ 0 by omega)
    have h31 := size_lt_of_le (d := 30) le_rfl
    have hk := (InOrder.index_lt_size.mp h).1
    rw [resolutionLoop, nodeAt_coord, resolutionAt]
    cases hn : slot t (k + 1) j with
    | none =>
      simp only [isLeaf_coord, Nat.succ_ne_zero, decide_false, Bool.false_eq_true, if_false,
        left_coord (show index (k + 1) j < 2 ^ 31 by omega),
        right_coord (show index (k + 1) j < 2 ^ 31 by omega) hk, bind, Except.bind,
        ih fuel (2 * j) (by omega) (child_lt_size h (by omega)),
        ih fuel (2 * j + 1) (by omega) (child_lt_size h (by omega)), pure, Except.pure]
    | some n =>
      simp only [isLeaf_coord, Nat.succ_ne_zero, decide_false, Bool.false_eq_true, if_false, pure,
        Except.pure]
      cases n <;> simp [Node.unmergedLeaves, hmap]

theorem resolution_coord {t : RatchetTree} {k j : ℕ} (h : index k j < size 30) :
    resolution t (coord k j) = .ok (resolutionAt t k j) :=
  resolutionLoop_coord t 33 k j (by have := (InOrder.index_lt_size.mp h).1; omega) h

theorem resolutionAt_congr {t t' : RatchetTree} {k j : ℕ}
    (h : ∀ k' j', Below k' j' k j → slot t' k' j' = slot t k' j') :
    resolutionAt t' k j = resolutionAt t k j := by
  induction k generalizing j with
  | zero => rw [resolutionAt, resolutionAt, h 0 j (InOrder.below_refl 0 j)]
  | succ k ih =>
    rw [resolutionAt, resolutionAt, h (k + 1) j (InOrder.below_refl _ j),
      ih fun k' j' hb => h k' j' (hb.trans (InOrder.below_left k j)),
      ih fun k' j' hb => h k' j' (hb.trans (InOrder.below_right k j))]

/-- A resolution is empty when the whole subtree is blank. -/
theorem resolutionAt_eq_nil {t : RatchetTree} {k j : ℕ} :
    resolutionAt t k j = [] ↔ ∀ k' j', Below k' j' k j → slot t k' j' = none := by
  induction k generalizing j with
  | zero =>
    rw [resolutionAt]
    constructor
    · intro h k' j' hb
      obtain ⟨rfl, rfl⟩ := InOrder.below_zero.mp hb
      cases hs : slot t 0 j' with
      | none => rfl
      | some n => rw [hs] at h; simp at h
    · intro h
      rw [h 0 j (InOrder.below_refl 0 j)]
  | succ k ih =>
    rw [resolutionAt]
    constructor
    · intro h k' j' hb
      cases hs : slot t (k + 1) j with
      | some n => rw [hs] at h; simp at h
      | none =>
        rw [hs] at h
        obtain ⟨hl, hr⟩ := List.append_eq_nil_iff.mp h
        rcases InOrder.below_succ.mp hb with ⟨rfl, rfl⟩ | hb | hb
        · exact hs
        · exact ih.mp hl k' j' hb
        · exact ih.mp hr k' j' hb
    · intro h
      rw [h (k + 1) j (InOrder.below_refl _ j)]
      refine List.append_eq_nil_iff.mpr ⟨ih.mpr fun k' j' hb => ?_, ih.mpr fun k' j' hb => ?_⟩
      · exact h k' j' (hb.trans (InOrder.below_left k j))
      · exact h k' j' (hb.trans (InOrder.below_right k j))

/-! ## Filtered direct paths -/

/-- The levels of a leaf's copath whose node has a non-empty resolution. -/
def filteredLevels (t : RatchetTree) (d i : ℕ) : List ℕ :=
  (List.range d).filter fun m => (resolutionAt t m (sib (i / 2 ^ m))).length ≠ 0

theorem mem_filteredLevels {t : RatchetTree} {d i m : ℕ} :
    m ∈ filteredLevels t d i ↔ m < d ∧ resolutionAt t m (sib (i / 2 ^ m)) ≠ [] := by
  simp [filteredLevels]

theorem filteredLevels_sorted (t : RatchetTree) (d i : ℕ) :
    (filteredLevels t d i).Pairwise (· < ·) :=
  List.Pairwise.filter _ List.pairwise_lt_range

theorem copath_eq_ok {d i : ℕ} {l : List ℤ} (hd : d ≤ 31)
    (h : copath (coord 0 i) (2 ^ d) = .ok l) : d ≤ 30 ∧ i < 2 ^ d := by
  rw [copath] at h
  by_cases hr : coord 0 i = root (2 ^ d)
  · have hd30 : d ≤ 30 := by
      by_contra hgt
      obtain rfl : d = 31 := by omega
      have := root_widest
      have := coord_nonneg 0 i
      omega
    rw [root_two_pow hd30, coord_inj] at hr
    obtain ⟨rfl, rfl⟩ := hr
    exact ⟨by omega, by simp⟩
  · rw [if_neg hr] at h
    obtain ⟨dp, hdp, -⟩ := bind_eq_ok.mp h
    obtain ⟨h1, h2, -⟩ := directPath_eq_ok hd hdp
    exact ⟨h1, h2⟩

theorem sibling_lt_size {d m i : ℕ} (hm : m < d) (hi : i < 2 ^ d) :
    index m (sib (i / 2 ^ m)) < size d := by
  refine InOrder.index_lt_size.mpr ⟨hm.le, ?_⟩
  have h := InOrder.div_two_pow_lt hm.le hi
  rw [show d - m = d - m - 1 + 1 by omega] at h ⊢
  exact sib_lt h

theorem size_mono {a b : ℕ} (h : a ≤ b) : size a ≤ size b := InOrder.size_strictMono.monotone h

theorem filteredDirectPathAndCopathResolution_coord {t : RatchetTree} {d i : ℕ}
    (hlen : t.length = size d) (hd : d ≤ 30) (hi : i < 2 ^ d) :
    filteredDirectPathAndCopathResolution i t = .ok ((filteredLevels t d i).map fun m =>
      { nodeIndex := coord (m + 1) (i / 2 ^ (m + 1))
        resolution := resolutionAt t m (sib (i / 2 ^ m)) }) := by
  have hres : ∀ m ∈ List.range d,
      resolution t (coord m (sib (i / 2 ^ m))) = .ok (resolutionAt t m (sib (i / 2 ^ m))) := by
    intro m hm
    apply resolution_coord
    exact lt_of_lt_of_le (sibling_lt_size (List.mem_range.mp hm) hi) (size_mono hd)
  simp only [filteredDirectPathAndCopathResolution, hlen, leafWidth_size, leafToNodeIndex_eq,
    copath_leaf hd hi, directPath_leaf hd hi, bind, Except.bind, List.zip_map', List.mapM_map]
  rw [mapM_ok (g := fun m => ({ nodeIndex := coord (m + 1) (i / 2 ^ (m + 1))
                                resolution := resolutionAt t m (sib (i / 2 ^ m)) } : PathNode))]
  · simp only [pure, Except.pure, Except.ok.injEq, filteredLevels, List.filter_map]
    rfl
  · intro m hm
    simp only [Function.comp_apply, hres m hm, pure, Except.pure]

theorem filteredDirectPath_coord {t : RatchetTree} {d i : ℕ}
    (hlen : t.length = size d) (hd : d ≤ 30) (hi : i < 2 ^ d) :
    filteredDirectPath i t =
      .ok ((filteredLevels t d i).map fun m => coord (m + 1) (i / 2 ^ (m + 1))) := by
  have hres : ∀ m ∈ List.range d,
      resolution t (coord m (sib (i / 2 ^ m))) = .ok (resolutionAt t m (sib (i / 2 ^ m))) := by
    intro m hm
    apply resolution_coord
    exact lt_of_lt_of_le (sibling_lt_size (List.mem_range.mp hm) hi) (size_mono hd)
  simp only [filteredDirectPath, hlen, leafWidth_size, leafToNodeIndex_eq,
    copath_leaf hd hi, directPath_leaf hd hi, bind, Except.bind, List.mapM_map]
  rw [mapM_ok (f := resolution t ∘ fun m => coord m (sib (i / 2 ^ m)))
    (g := fun m => resolutionAt t m (sib (i / 2 ^ m))) _ hres]
  simp only [List.zip_map', pure, Except.pure, Except.ok.injEq, filteredLevels,
    List.filterMap_map]
  induction List.range d with
  | nil => rfl
  | cons m l ih =>
    rw [List.filterMap_cons, List.filter_cons, ih]
    simp only [Function.comp_apply]
    by_cases hm : (resolutionAt t m (sib (i / 2 ^ m))).length ≠ 0
    · rw [if_pos hm, if_pos (decide_eq_true hm), List.map_cons]
    · rw [if_neg hm, if_neg (by simpa using hm)]

theorem filteredDirectPath_eq_ok {t : RatchetTree} {d i : ℕ} {l : List ℤ}
    (hlen : t.length = size d) (hd : d ≤ 31) (h : filteredDirectPath i t = .ok l) :
    d ≤ 30 ∧ i < 2 ^ d := by
  rw [filteredDirectPath, hlen, leafWidth_size, leafToNodeIndex_eq] at h
  obtain ⟨cp, hcp, -⟩ := bind_eq_ok.mp h
  exact copath_eq_ok hd hcp

theorem filteredDirectPathAndCopathResolution_eq_ok {t : RatchetTree} {d i : ℕ}
    {l : List PathNode} (hlen : t.length = size d) (hd : d ≤ 31)
    (h : filteredDirectPathAndCopathResolution i t = .ok l) : d ≤ 30 ∧ i < 2 ^ d := by
  rw [filteredDirectPathAndCopathResolution, hlen, leafWidth_size, leafToNodeIndex_eq] at h
  obtain ⟨cp, hcp, -⟩ := bind_eq_ok.mp h
  exact copath_eq_ok hd hcp

end WebcryptoMls
