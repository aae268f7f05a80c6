import WebcryptoMls.ParentHashChains

/-!
# Coverage of parent nodes

The loops of `parentHashCoverage` are walks along the links between a node and
the parent it carries the hash of. With one link into every parent and none into
a leaf, the walks from all leaves count every parent once.
-/
namespace WebcryptoMls
open InOrder (index size Below)

/-- A tree in which every parent can be verified: its parents are chained, the
values stored below each were put in order, and its original subtrees can be
built. -/
structure Verifiable (h : Hash) (S : Set Bytes) (seen : List Bytes) (d : ℕ) (t : RatchetTree) :
    Prop where
  inv : TreeInvariant t
  depth : d ≤ 30
  length : t.length = size d
  chained : ParentsChained h S t
  grounded : Chains.Grounded (Uses h S) seen
  stored : ∀ m q p k j n v, slot t (m + 1) q = some (.parent p) → Below k j (m + 1) q →
    originalPlaces t p k j = some n → getParentHash n = some v → v = [] ∨ v ∈ seen
  original : ∀ m q p, slot t (m + 1) q = some (.parent p) →
    ∃ t₀, originalTree t p.unmergedLeaves = .ok t₀

/-- The node at `(k, j)` carries the hash of its nearest non-blank ancestor and
meets the criterion. -/
structure Linked (t : RatchetTree) (h : Hash) (k j m : ℕ) (p : ParentNode) : Prop where
  next : NextAbove (slot t) k j (m + 1) p
  hash : ∃ n v x, slot t k j = some n ∧ getParentHash n = some v ∧
    subtreeHashAt (originalPlaces t p) h m (sib (j / 2 ^ (m - k))) = .ok x ∧
    bindParent h p x = .ok v
  criterion : Criterion t p k j m (j / 2 ^ (m - k))

theorem Linked.below {t : RatchetTree} {h : Hash} {k j m : ℕ} {p : ParentNode}
    (hl : Linked t h k j m p) : Below k j m (j / 2 ^ (m - k)) :=
  ⟨Nat.lt_succ_iff.mp hl.next.lt, rfl⟩

section
variable {h : Hash} {S : Set Bytes} {seen : List Bytes} {d : ℕ} {t : RatchetTree}

/-! ## One link into every parent -/

theorem Verifiable.exists_linked (hv : Verifiable h S seen d t) {m q : ℕ} {p : ParentNode}
    (hp : slot t (m + 1) q = some (.parent p)) :
    ∃ k j, Linked t h k j m p ∧ j / 2 ^ (m + 1 - k) = q ∧ slot t k j ≠ none := by
  obtain ⟨k, j, c, n, x, v, hc, hsole, hn, hx, hbind, hnv⟩ := (hv.chained m q p hp).link
  obtain ⟨n₀, hn₀, rfl, -⟩ := originalPlaces_eq_some hn
  obtain ⟨hk, rfl⟩ := hsole.below
  have hq : j / 2 ^ (m + 1 - k) = q := by
    rw [show m + 1 - k = m - k + 1 by omega, InOrder.div_two_pow_succ, hc]
  refine ⟨k, j, ⟨⟨by omega, by rw [hq, hp], fun m' h1 h2 => ?_⟩, ?_, ?_⟩, hq, by simp [hn₀]⟩
  · by_contra hne
    obtain ⟨n', hn'⟩ := Option.ne_none_iff_exists'.mp hne
    have horig := originalPlaces_of_slot (p := p) hn' (by omega)
    have hup : Below m' (j / 2 ^ (m' - k)) m (j / 2 ^ (m - k)) := by
      refine ⟨by omega, ?_⟩
      rw [InOrder.div_two_pow_add, show m' - k + (m - m') = m - k by omega]
    have := (hsole.only _ _ hup (by rw [horig]; simp)).1
    omega
  · rw [getParentHash_without] at hnv
    exact ⟨n₀, v, x, hn₀, hnv, hx, hbind⟩
  · exact hsole.criterion hv.inv hp

/-- What a linked node carries is stored in the original subtree of its side. -/
theorem Linked.occurs {k j m : ℕ} {p : ParentNode} {n : Node} {v : Bytes}
    (hl : Linked t h k j m p) (hn : slot t k j = some n) (hnv : getParentHash n = some v) :
    originalPlaces t p k j = some (n.without p.unmergedLeaves) ∧
      Occurs (originalPlaces t p) m (j / 2 ^ (m - k)) v := by
  have horig := originalPlaces_of_slot hn (hl.criterion.not_unmerged hl.below)
  exact ⟨horig, k, j, _, hl.below, horig, by rw [getParentHash_without, hnv]⟩

/-- Of two nodes linked from different sides each would carry a hash over the other. -/
theorem Verifiable.linked_unique (hv : Verifiable h S seen d t)
    (hne : ∀ y, h.digest y ≠ []) {k j k' j' m : ℕ} {p : ParentNode} (hl : Linked t h k j m p)
    (hl' : Linked t h k' j' m p) (hq : j / 2 ^ (m + 1 - k) = j' / 2 ^ (m + 1 - k')) :
    k = k' ∧ j = j' := by
  have hk := hl.below.1
  have hk' := hl'.below.1
  have hdiv : j / 2 ^ (m - k) / 2 = j' / 2 ^ (m - k') / 2 := by
    rw [← InOrder.div_two_pow_succ, ← InOrder.div_two_pow_succ,
      show m - k + 1 = m + 1 - k by omega, show m - k' + 1 = m + 1 - k' by omega, hq]
  rcases eq_or_eq_sib hdiv with hside | hside
  · have hcrit := hl.criterion
    rw [hside] at hcrit
    exact hcrit.unique hl'.criterion
  · exfalso
    obtain ⟨n, v, x, hn, hnv, hx, hbind⟩ := hl.hash
    obtain ⟨n', v', x', hn', hnv', hx', hbind'⟩ := hl'.hash
    obtain ⟨horig, hocc⟩ := hl.occurs hn hnv
    obtain ⟨-, hocc'⟩ := hl'.occurs hn' hnv'
    have hside' : sib (j / 2 ^ (m - k)) = j' / 2 ^ (m - k') := by rw [hside, sib_sib]
    rw [hside'] at hx
    rw [← hside] at hx'
    have hq' : j / 2 ^ (m - k) / 2 = j / 2 ^ (m + 1 - k) := by
      rw [← InOrder.div_two_pow_succ, show m - k + 1 = m + 1 - k by omega]
    have hch := hv.chained m _ p hl.next.node
    obtain ⟨y, hy, hyv⟩ := bindParent_eq_ok.mp hbind
    obtain ⟨y', hy', hyv'⟩ := bindParent_eq_ok.mp hbind'
    obtain ⟨z, w, hz, hin, hw, hwS⟩ := hch.sides (j' / 2 ^ (m - k')) (by omega)
    obtain rfl : x = z := Except.ok.inj (hx.symm.trans hz)
    obtain rfl : y = w := Except.ok.inj (hy.symm.trans hw)
    obtain ⟨z', w', hz', hin', hw', hwS'⟩ := hch.sides (j / 2 ^ (m - k)) hq'
    obtain rfl : x' = z' := Except.ok.inj (hx'.symm.trans hz')
    obtain rfl : y' = w' := Except.ok.inj (hy'.symm.trans hw')
    have huse : Uses h S v v' :=
      ⟨hyv' ▸ hne y', _, y, _, m, _, hy, hwS, hyv, hx, hin, hocc'⟩
    have huse' : Uses h S v' v :=
      ⟨hyv ▸ hne y, _, y', _, m, _, hy', hwS', hyv', hx', hin', hocc⟩
    have hmem : v ∈ seen := by
      have hb : Below k j (m + 1) (j / 2 ^ (m + 1 - k)) := ⟨by omega, rfl⟩
      refine (hv.stored m _ p k j _ v hl.next.node hb horig ?_).resolve_left (hyv ▸ hne y)
      rw [getParentHash_without, hnv]
    exact hv.grounded.not_mutual hmem huse huse'

/-! ## The rounds of the climb -/

theorem childTowards_coord {k j m : ℕ} (hd : d ≤ 30) (hk : k ≤ m)
    (hlt : index (m + 1) (j / 2 ^ (m + 1 - k)) < size d) :
    childTowards (coord k j) (coord (m + 1) (j / 2 ^ (m + 1 - k))) =
      .ok (coord m (j / 2 ^ (m - k))) := by
  have h31 := size_lt_of_le hd
  have hm := (InOrder.index_lt_size.mp hlt).1
  have hside := InOrder.index_lt_ancestor (k := k) (m := m + 1) (j := j) (by omega)
  rw [show m + 1 - k - 1 = m - k by omega] at hside
  have hq : j / 2 ^ (m + 1 - k) = j / 2 ^ (m - k) / 2 := by
    rw [show m + 1 - k = m - k + 1 by omega, InOrder.div_two_pow_succ]
  unfold childTowards
  by_cases hpar : j / 2 ^ (m - k) % 2 = 0
  · rw [if_pos (by rw [coord, coord]; exact_mod_cast hside.mpr hpar), left_coord (by omega), hq,
      show 2 * (j / 2 ^ (m - k) / 2) = j / 2 ^ (m - k) by omega]
  · rw [if_neg (by rw [coord, coord]; exact_mod_cast mt hside.mp hpar),
      right_coord (by omega) (by omega), hq,
      show 2 * (j / 2 ^ (m - k) / 2) + 1 = j / 2 ^ (m - k) by omega]

/-- What a round of the climb does at a node below a non-blank ancestor. -/
theorem Verifiable.round_next (hv : Verifiable h S seen d t) {k j m : ℕ} {p : ParentNode}
    {n : Node} (hj : j < 2 ^ (d - k)) (hn : slot t k j = some n)
    (hnext : NextAbove (slot t) k j (m + 1) p) (fuel : ℕ) (coverage : Coverage) :
    (Linked t h k j m p → coverageLoop t h (coord d 0) (fuel + 1) (coord k j) coverage =
      coverageLoop t h (coord d 0) fuel (coord (m + 1) (j / 2 ^ (m + 1 - k)))
        (coverage.increment (coord (m + 1) (j / 2 ^ (m + 1 - k))))) ∧
    (¬ Linked t h k j m p →
      coverageLoop t h (coord d 0) (fuel + 1) (coord k j) coverage = .ok coverage) := by
  have hlt := hnext.lt
  have hidx : index (m + 1) (j / 2 ^ (m + 1 - k)) < size d :=
    hv.length ▸ index_lt_of_slot hnext.node
  have hmd := (InOrder.index_lt_size.mp hidx).1
  have hne : coord k j ≠ coord d 0 := fun h => by have := (coord_inj.mp h).1; omega
  have hq : j / 2 ^ (m - k) / 2 = j / 2 ^ (m + 1 - k) := by
    rw [← InOrder.div_two_pow_succ, show m - k + 1 = m + 1 - k by omega]
  have hch := hv.chained m _ p hnext.node
  obtain ⟨x, y, hx, -, hy, -⟩ := hch.sides (sib (j / 2 ^ (m - k))) (by rw [sib_div_two, hq])
  obtain ⟨t₀, ht₀⟩ := hv.original m _ p hnext.node
  have hbind : bindParent h p x = .ok (h.digest y) := bindParent_eq_ok.mpr ⟨y, hy, rfl⟩
  have hcalc : calculateParentHash t (coord k j) h =
      .ok (h.digest y, some (coord (m + 1) (j / 2 ^ (m + 1 - k)))) := by
    rw [calculateParentHash_original hv.length hv.depth hj hnext ht₀, hx, ok_bind, hbind]
    rfl
  obtain ⟨b, hb, hbiff⟩ := satisfiesResolutionCriterion_coord (k := k) (j := j) hv.inv hv.length
    hv.depth hnext.node hq
  rw [coverageLoop, if_neg hne, nodeAt_coord, hn]
  simp only [hcalc, ok_bind, childTowards_coord hv.depth (show k ≤ m by omega) hidx]
  cases hgp : getParentHash n with
  | none =>
    refine ⟨fun hl => ?_, fun _ => rfl⟩
    obtain ⟨n', v, -, hn', hnv, -⟩ := hl.hash
    obtain rfl : n = n' := Option.some.inj (hn.symm.trans hn')
    rw [hgp] at hnv
    cases hnv
  | some v =>
    by_cases hvy : h.digest y = v
    · simp only [constantTimeEqual_iff.mpr hvy, if_true, hb, ok_bind]
      have hlink : b = true → Linked t h k j m p := fun hbt =>
        ⟨hnext, ⟨n, v, x, hn, hgp, hx, hvy ▸ hbind⟩, hbiff.mp hbt⟩
      refine ⟨fun hl => by rw [hbiff.mpr hl.criterion]; rfl, fun hnl => ?_⟩
      rw [Bool.eq_false_iff.mpr fun hbt => hnl (hlink hbt)]
      rfl
    · simp only [mt constantTimeEqual_iff.mp hvy, if_false, Bool.false_eq_true]
      refine ⟨fun hl => ?_, fun _ => rfl⟩
      obtain ⟨n', v', x', hn', hnv', hx', hbind'⟩ := hl.hash
      obtain rfl : n = n' := Option.some.inj (hn.symm.trans hn')
      obtain rfl : v = v' := Option.some.inj (hgp.symm.trans hnv')
      obtain rfl : x = x' := Except.ok.inj (hx.symm.trans hx')
      exact absurd (Except.ok.inj (hbind.symm.trans hbind')) hvy

/-- At a node below blank nodes only, the climb ends. -/
theorem Verifiable.round_blank (hv : Verifiable h S seen d t) {k j : ℕ} {n : Node} (hk : k < d)
    (hj : j < 2 ^ (d - k)) (hn : slot t k j = some n)
    (hblank : ∀ m, k < m → slot t m (j / 2 ^ (m - k)) = none) (fuel : ℕ) (coverage : Coverage) :
    coverageLoop t h (coord d 0) (fuel + 1) (coord k j) coverage = .ok coverage := by
  have hne : coord k j ≠ coord d 0 := fun h => by have := (coord_inj.mp h).1; omega
  obtain ⟨m, rfl⟩ : ∃ m, d = m + 1 := ⟨d - 1, by omega⟩
  have hroot : j / 2 ^ (m + 1 - k) = 0 := Nat.div_eq_of_lt hj
  have hside := childTowards_coord (d := m + 1) (k := k) (j := j) (m := m) hv.depth (by omega)
    (by rw [hroot]; exact InOrder.index_lt_size.mpr ⟨le_rfl, by simp⟩)
  have hcrit : ∀ c, satisfiesResolutionCriterion t (coord k j) (coord (m + 1) 0) c = .ok false := by
    intro c
    rw [← hroot, satisfiesResolutionCriterion, nodeAt_coord, hblank (m + 1) hk]
    rfl
  rw [hroot] at hside
  rw [coverageLoop, if_neg hne, nodeAt_coord, hn]
  simp only [calculateParentHash_blank h hv.length hv.depth hk hj hblank, ok_bind, hside, hcrit]
  cases getParentHash n with
  | none => rfl
  | some v => simp only [Bool.false_eq_true, if_false]; split_ifs <;> rfl

/-! ## Counting the walks -/

open Classical in
/-- The parent a node is linked to. -/
noncomputable def nextLinked (t : RatchetTree) (h : Hash) (x : ℕ × ℕ) : Option (ℕ × ℕ) :=
  if hl : ∃ m p, Linked t h x.1 x.2 m p then some (hl.choose + 1, x.2 / 2 ^ (hl.choose + 1 - x.1))
  else none

theorem nextLinked_eq_some {x y : ℕ × ℕ} : nextLinked t h x = some y ↔
    ∃ m p, Linked t h x.1 x.2 m p ∧ y = (m + 1, x.2 / 2 ^ (m + 1 - x.1)) := by
  unfold nextLinked
  split_ifs with hl
  · obtain ⟨p, hp⟩ := hl.choose_spec
    constructor
    · intro h
      exact ⟨_, p, hp, (Option.some.inj h).symm⟩
    · rintro ⟨m, p', hp', rfl⟩
      have := (hp.next.unique hp'.next).1
      rw [this]
  · constructor
    · intro hy
      cases hy
    · rintro ⟨m, p, hp, -⟩
      exact absurd ⟨m, p, hp⟩ hl

theorem nextLinked_eq_none {x : ℕ × ℕ} (hx : ∀ m p, ¬ Linked t h x.1 x.2 m p) :
    nextLinked t h x = none := by
  rw [nextLinked, dif_neg]
  rintro ⟨m, p, hp⟩
  exact hx m p hp

theorem nextLinked_rank (x y : ℕ × ℕ) (hxy : nextLinked t h x = some y) : x.1 < y.1 := by
  obtain ⟨m, p, hp, rfl⟩ := nextLinked_eq_some.mp hxy
  exact hp.next.lt

/-- The climb from a node counts the nodes of its walk. -/
theorem Verifiable.coverageLoop_eq (hv : Verifiable h S seen d t) {k j : ℕ} {n : Node}
    (hn : slot t k j = some n) (fuel : ℕ) (hf : d < k + fuel) (coverage : Coverage) :
    ∃ coverage', coverageLoop t h (coord d 0) fuel (coord k j) coverage = .ok coverage' ∧
      ∀ M Q, coverage' (coord M Q) = coverage (coord M Q) +
        (Chains.chain (nextLinked t h) fuel (k, j)).count (M, Q) := by
  have hkj := InOrder.index_lt_size.mp (hv.length ▸ index_lt_of_slot hn)
  induction fuel generalizing k j n coverage with
  | zero => omega
  | succ fuel ih =>
    rcases hv.inv.typed.nextAbove_or_blank k j with ⟨m, p, hnext⟩ | hblank
    · obtain ⟨hround, hstop⟩ := hv.round_next (h := h) hkj.2 hn hnext fuel coverage
      by_cases hl : Linked t h k j m p
      · have hlt := hnext.lt
        obtain ⟨cov', hcov', hcount⟩ := ih hnext.node (by omega)
          (coverage.increment (coord (m + 1) (j / 2 ^ (m + 1 - k))))
          (InOrder.index_lt_size.mp (hv.length ▸ index_lt_of_slot hnext.node))
        refine ⟨cov', by rw [hround hl, hcov'], fun M Q => ?_⟩
        have hsome : nextLinked t h (k, j) = some (m + 1, j / 2 ^ (m + 1 - k)) :=
          nextLinked_eq_some.mpr ⟨m, p, hl, rfl⟩
        rw [hcount, Chains.chain, hsome]
        simp only [Coverage.increment, coord_inj, List.count_cons, beq_iff_eq, Prod.mk.injEq]
        by_cases heq : M = m + 1 ∧ Q = j / 2 ^ (m + 1 - k)
        · rw [if_pos heq, if_pos ⟨heq.1.symm, heq.2.symm⟩]
          omega
        · rw [if_neg heq, if_neg fun h => heq ⟨h.1.symm, h.2.symm⟩]
          omega
      · have hnone : nextLinked t h (k, j) = none := by
          refine nextLinked_eq_none fun m' p' hl' => hl ?_
          obtain ⟨h1, rfl⟩ := hl'.next.unique hnext
          obtain rfl : m' = m := by omega
          exact hl'
        exact ⟨coverage, hstop hl, fun M Q => by simp [Chains.chain, hnone]⟩
    · have hnone : nextLinked t h (k, j) = none := by
        refine nextLinked_eq_none fun m' p' hl' => ?_
        have := hblank _ hl'.next.lt
        rw [hl'.next.node] at this
        cases this
      refine ⟨coverage, ?_, fun M Q => by simp [Chains.chain, hnone]⟩
      rcases Nat.eq_or_lt_of_le hkj.1 with rfl | hkd
      · have hj0 : j = 0 := by have := hkj.2; simpa using this
        rw [coverageLoop, if_pos (by rw [hj0])]
        rfl
      · exact hv.round_blank hkd hkj.2 hn hblank fuel coverage

/-- The leaves the climbs start from. -/
def leafStarts (l : List (Option Node × ℕ)) : List (ℕ × ℕ) :=
  l.filterMap fun (node, index) =>
    if node.isNone || !isLeaf index then none else some (0, index / 2)

theorem mem_leafStarts {x : ℕ × ℕ} :
    x ∈ leafStarts t.zipIdx ↔ x.1 = 0 ∧ slot t 0 x.2 ≠ none := by
  obtain ⟨k, i⟩ := x
  simp only [leafStarts, List.mem_filterMap, Prod.exists]
  constructor
  · rintro ⟨node, m, hmem, hx⟩
    rw [List.mem_zipIdx_iff_getElem?] at hmem
    obtain ⟨a, b, rfl⟩ := InOrder.exists_index m
    split_ifs at hx with hc
    obtain ⟨rfl, rfl⟩ := Prod.mk.inj (Option.some.inj hx)
    rw [Bool.or_eq_true, not_or] at hc
    have hcoord : ((index a b : ℕ) : ℤ) = coord a b := rfl
    obtain rfl : a = 0 := by simpa [hcoord] using hc.2
    refine ⟨rfl, ?_⟩
    simp only at hmem
    rw [InOrder.index_zero, Nat.mul_div_cancel_left b (by omega), slot_eq_getElem?, hmem]
    simpa [Option.isNone_iff_eq_none] using hc.1
  · rintro ⟨rfl, hne⟩
    obtain ⟨n, hn⟩ := Option.ne_none_iff_exists'.mp hne
    refine ⟨some n, index 0 i, ?_, ?_⟩
    · rw [List.mem_zipIdx_iff_getElem?]
      rw [slot_eq_getElem?] at hn
      exact Option.join_eq_some_iff.mp hn
    · have hleaf : isLeaf ((index 0 i : ℕ) : ℤ) = true := isLeaf_coord 0 i
      rw [InOrder.index_zero] at hleaf ⊢
      push_cast at hleaf
      simp [hleaf]

theorem nodup_leafStarts : (leafStarts t.zipIdx).Nodup := by
  have hsorted : t.zipIdx.Pairwise fun a b => a.2 < b.2 := by
    rw [← List.pairwise_map, List.zipIdx_map_snd]
    exact List.pairwise_lt_range'
  refine List.pairwise_filterMap.mpr (hsorted.imp ?_)
  rintro ⟨n, a⟩ ⟨n', b⟩ hab x hx y hy
  simp only at hab hx hy
  split_ifs at hx hy with hc hc'
  simp only [Bool.or_eq_true, not_or, Bool.not_eq_true', Bool.not_eq_false, isLeaf,
    beq_iff_eq] at hc hc'
  obtain rfl := Option.some.inj hx
  obtain rfl := Option.some.inj hy
  have h1 := hc.2
  have h2 := hc'.2
  simp only [ne_eq, Prod.mk.injEq, true_and]
  omega

/-- The climbs from all leaves add up. -/
theorem Verifiable.parentHashCoverage_eq (hv : Verifiable h S seen d t) :
    ∃ coverage, parentHashCoverage t h = .ok coverage ∧ ∀ M Q, coverage (coord M Q) =
      ((leafStarts t.zipIdx).map fun s =>
        (Chains.chain (nextLinked t h) 33 s).count (M, Q)).sum := by
  have hfold : ∀ (l : List (Option Node × ℕ)), l ⊆ t.zipIdx → ∀ cov : Coverage,
      ∃ cov', l.foldlM (fun coverage (node, index) =>
        if node.isNone || !isLeaf index then pure coverage
        else coverageLoop t h (root (leafWidth t.length)) 33 index coverage) cov = .ok cov' ∧
      ∀ M Q, cov' (coord M Q) = cov (coord M Q) + ((leafStarts l).map fun s =>
        (Chains.chain (nextLinked t h) 33 s).count (M, Q)).sum := by
    intro l
    induction l with
    | nil => exact fun _ cov => ⟨cov, rfl, fun M Q => by simp [leafStarts]⟩
    | cons a l ih =>
      obtain ⟨node, m⟩ := a
      intro hsub cov
      have hsub' : l ⊆ t.zipIdx := fun x hx => hsub (List.mem_cons_of_mem _ hx)
      rw [List.foldlM_cons]
      by_cases hc : (node.isNone || !isLeaf m) = true
      · obtain ⟨cov', hcov', hcount⟩ := ih hsub' cov
        have hstarts : leafStarts ((node, m) :: l) = leafStarts l := by
          simp only [leafStarts, List.filterMap_cons, if_pos hc]
        exact ⟨cov', by simp only [if_pos hc, pure_bind, hcov'], by rw [hstarts]; exact hcount⟩
      · have hmem : (0, m / 2) ∈ leafStarts t.zipIdx :=
          List.mem_filterMap.mpr ⟨(node, m), hsub (List.mem_cons_self ..), by simp only [if_neg hc]⟩
        obtain ⟨-, hne⟩ := mem_leafStarts.mp hmem
        obtain ⟨n, hn⟩ := Option.ne_none_iff_exists'.mp hne
        have hm : (m : ℤ) = coord 0 (m / 2) := by
          rw [Bool.or_eq_true, not_or, Bool.not_eq_true', Bool.not_eq_false, isLeaf, beq_iff_eq]
            at hc
          have := hc.2
          rw [coord, InOrder.index_zero]
          omega
        obtain ⟨cov₁, hcov₁, hcount₁⟩ := hv.coverageLoop_eq hn 33 (by have := hv.depth; omega) cov
        obtain ⟨cov', hcov', hcount⟩ := ih hsub' cov₁
        have hroot : root (leafWidth t.length) = coord d 0 := by
          rw [hv.length, leafWidth_size, root_two_pow hv.depth]
        refine ⟨cov', ?_, fun M Q => ?_⟩
        · rw [← hroot, ← hm] at hcov₁
          simp only [if_neg hc, hcov₁, ok_bind, hcov']
        · rw [hcount, hcount₁]
          simp only [leafStarts, List.filterMap_cons, if_neg hc, List.map_cons, List.sum_cons]
          omega
  obtain ⟨cov, hcov, hcount⟩ := hfold t.zipIdx (List.Subset.refl _) fun _ => 0
  exact ⟨cov, hcov, fun M Q => by rw [hcount, Nat.zero_add]⟩

theorem Verifiable.exists_pred (hv : Verifiable h S seen d t) {b : ℕ × ℕ}
    (hb : slot t b.1 b.2 ≠ none) (hstart : b ∉ leafStarts t.zipIdx) :
    ∃ a : ℕ × ℕ, slot t a.1 a.2 ≠ none ∧ nextLinked t h a = some b := by
  obtain ⟨k, j⟩ := b
  obtain ⟨n, hn⟩ := Option.ne_none_iff_exists'.mp hb
  have hk : k ≠ 0 := fun hk => hstart (mem_leafStarts.mpr ⟨hk, by subst hk; exact hb⟩)
  obtain ⟨k, rfl⟩ := Nat.exists_eq_succ_of_ne_zero hk
  obtain ⟨p, rfl⟩ := hv.inv.typed.parent k j n hn
  obtain ⟨a, b, hl, hq, hab⟩ := hv.exists_linked hn
  exact ⟨(a, b), hab, nextLinked_eq_some.mpr ⟨k, p, hl, by rw [hq]⟩⟩

theorem Verifiable.pred_unique (hv : Verifiable h S seen d t) (hne : ∀ y, h.digest y ≠ [])
    {a a' b : ℕ × ℕ} (hab : nextLinked t h a = some b) (hab' : nextLinked t h a' = some b) :
    a = a' := by
  obtain ⟨k, j⟩ := a
  obtain ⟨k', j'⟩ := a'
  obtain ⟨m, p, hl, rfl⟩ := nextLinked_eq_some.mp hab
  obtain ⟨m', p', hl', heq⟩ := nextLinked_eq_some.mp hab'
  obtain ⟨hm, hq⟩ := Prod.mk.inj heq
  obtain rfl : m = m' := by omega
  have hp := hl.next.node
  have hp' := hl'.next.node
  simp only at hp hp' hq
  rw [← hq, hp] at hp'
  obtain rfl := Node.parent.inj (Option.some.inj hp')
  obtain ⟨rfl, rfl⟩ := hv.linked_unique hne hl hl' hq
  rfl

theorem start_not_linked {s : ℕ × ℕ} (hs : s ∈ leafStarts t.zipIdx) (a : ℕ × ℕ) :
    nextLinked t h a ≠ some s := by
  intro ha
  obtain ⟨m, p, -, rfl⟩ := nextLinked_eq_some.mp ha
  exact absurd (mem_leafStarts.mp hs).1 (Nat.succ_ne_zero m)

theorem Verifiable.verifyParentHashes (hv : Verifiable h S seen d t)
    (hne : ∀ y, h.digest y ≠ []) : verifyParentHashes t h = .ok true := by
  simp only [WebcryptoMls.verifyParentHashes]
  split_ifs with hnone
  · rfl
  obtain ⟨cov, hcov, hcount⟩ := hv.parentHashCoverage_eq
  rw [hcov, ok_bind]
  simp only [pure, Except.pure, Except.ok.injEq, List.all_eq_true, List.mem_filterMap, Prod.exists]
  rintro n ⟨node, m, hmem, hn⟩
  obtain ⟨M, Q, rfl⟩ := InOrder.exists_index m
  rw [List.mem_zipIdx_iff_getElem?] at hmem
  rcases node with _ | p | l
  · cases hn
  · obtain rfl := Option.some.inj hn
    have hp : slot t M Q = some (.parent p) := by
      simp only at hmem
      rw [slot_eq_getElem?, hmem]
      rfl
    have hMd := (InOrder.index_lt_size.mp (hv.length ▸ index_lt_of_slot hp)).1
    have hd := hv.depth
    have hM : M ≠ 0 := by
      rintro rfl
      obtain ⟨l, hl⟩ := hv.inv.typed.leaf Q _ hp
      cases hl
    have hcoord : ((index M Q : ℕ) : ℤ) = coord M Q := rfl
    rw [hcoord, hcount, beq_iff_eq]
    exact Chains.sum_count_chain nextLinked_rank (fun x => slot t x.1 x.2 ≠ none)
      (fun b => hv.exists_pred)
      (fun a a' b => hv.pred_unique hne) (fun s hs a => start_not_linked hs a) nodup_leafStarts
      (b := (M, Q)) (by simp [hp]) (fun hmem => hM (mem_leafStarts.mp hmem).1)
      (show M ≤ 33 by omega)
  · cases hn

end

end WebcryptoMls
