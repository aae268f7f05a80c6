import WebcryptoMls.ParentHashCoverage
import WebcryptoMls.TreeGrowth

/-!
# Runs of tree operations and their parent hashes

A run adds and updates leaves that come from key packages and Update proposals,
which carry no parent hash, and writes paths whose tree its caller hashes. The
leaf of an external commit is added with its parent hash and its path is written
over it at once. In every tree of a run that `removeLeaves` can still condense,
the parent hashes verify. From 2 ^ 31 - 1 nodes on the shift in
`nextFullBinaryTreeSize` overflows and the loop never ends.
-/
namespace WebcryptoMls
open InOrder (index size Below)

/-- The trees between the commits of a run. `S` holds what is hashed in the trees
the paths of the run yield. -/
inductive Settled (h : Hash) (S : Set Bytes) : RatchetTree → Prop
  | init {leaf : LeafNode} (hleaf : leaf.info.parentHash = none) : Settled h S [some (.leaf leaf)]
  | addLeafNode {t t' : RatchetTree} {leaf : LeafNode} {n : ℤ} (ht : Settled h S t)
      (hleaf : leaf.info.parentHash = none) (hadd : addLeafNode t leaf = .ok (t', n)) :
      Settled h S t'
  | updateLeafNode {t t' : RatchetTree} {leaf : LeafNode} {i : ℕ} (ht : Settled h S t)
      (hleaf : leaf.info.parentHash = none) (hupdate : updateLeafNode t leaf i = .ok t') :
      Settled h S t'
  | removeLeafNode {t t' : RatchetTree} {i : ℕ} (ht : Settled h S t)
      (hremove : removeLeafNode t i = .ok t') : Settled h S t'
  | createUpdatePath {t : RatchetTree} {i : ℕ} {gc : GroupContext} {cs : CiphersuiteImpl}
      {key : cs.signature.SignatureSecretKey} {coins : PathCoins} {exclude : List ℤ}
      {patch : ResolvedLeafNodePatch cs.signature} {created : CreatedPath cs}
      (ht : Settled h S t) (hsuite : cs.hash = h)
      (hcreate : createUpdatePath t i gc cs key coins exclude patch = .ok created)
      (hinputs : HashInputs h created.tree ⊆ S) : Settled h S created.tree
  | applyUpdatePath {t t' : RatchetTree} {i : ℕ} {path : UpdatePath} (ht : Settled h S t)
      (happly : applyUpdatePath t i path h = .ok t')
      (hroot : ∃ root, treeHashRoot t' h = .ok root) (hinputs : HashInputs h t' ⊆ S) :
      Settled h S t'
  | externalPath {t t₁ t' : RatchetTree} {i : ℕ} {path : UpdatePath} (ht : Settled h S t)
      (hadd : WebcryptoMls.addLeafNode t path.leafNode.leaf = .ok (t₁, leafToNodeIndex i))
      (happly : WebcryptoMls.applyUpdatePath t₁ i path h true = .ok t')
      (hroot : ∃ root, treeHashRoot t' h = .ok root) (hinputs : HashInputs h t' ⊆ S) :
      Settled h S t'

/-- Every tree of a run, also one that an external committer's leaf has just
been added to. -/
inductive Reached (h : Hash) (S : Set Bytes) : RatchetTree → Prop
  | settled {t : RatchetTree} (ht : Settled h S t) : Reached h S t
  | joining {t t' : RatchetTree} {leaf : LeafNode} {n : ℤ} (ht : Settled h S t)
      (hadd : addLeafNode t leaf = .ok (t', n)) : Reached h S t'

theorem Settled.reachable {h : Hash} {S : Set Bytes} {t : RatchetTree} (ht : Settled h S t) :
    Reachable t := by
  induction ht with
  | init _ => exact .init _
  | addLeafNode _ _ hadd ih => exact ih.addLeafNode hadd
  | updateLeafNode _ _ hupdate ih => exact ih.updateLeafNode hupdate
  | removeLeafNode _ hremove ih => exact ih.removeLeafNode hremove
  | createUpdatePath _ _ hcreate _ ih => exact ih.createUpdatePath hcreate
  | applyUpdatePath _ happly _ _ ih => exact ih.applyUpdatePath happly
  | externalPath _ hadd happly _ _ ih => exact (ih.addLeafNode hadd).applyUpdatePath happly

section
variable {h : Hash} {S : Set Bytes} (hinj : Set.InjOn h.digest S) (hne : ∀ y, h.digest y ≠ [])
include hinj hne

theorem Settled.hashInvariant {t : RatchetTree} (ht : Settled h S t) :
    ∃ seen, HashInvariant h S seen t := by
  induction ht with
  | init hleaf => exact ⟨[], hashInvariant_singleton hleaf⟩
  | addLeafNode ht hleaf hadd ih =>
    obtain ⟨seen, hi⟩ := ih
    obtain ⟨hinv, d, hg⟩ := ht.reachable.invariant
    obtain ⟨i, d', -, -, ha, -, -⟩ := addLeafNode_added hg hadd
    exact ⟨seen, hi.added hinv ha hleaf⟩
  | updateLeafNode ht hleaf hupdate ih =>
    obtain ⟨seen, hi⟩ := ih
    obtain ⟨-, d, hg⟩ := ht.reachable.invariant
    refine ⟨seen, hi.blanked (updateLeafNode_blanked hg hupdate).1 ?_⟩
    rintro l ⟨⟩
    exact hleaf
  | removeLeafNode ht hremove ih =>
    obtain ⟨seen, hi⟩ := ih
    obtain ⟨hinv, d, hg⟩ := ht.reachable.invariant
    refine ⟨seen, hi.blanked (removeLeafNode_blanked hinv.isCovered hg hremove).1 ?_⟩
    rintro l ⟨⟩
  | createUpdatePath ht hsuite hcreate hinputs ih =>
    obtain ⟨seen, hi⟩ := ih
    obtain ⟨hinv, d, hg⟩ := ht.reachable.invariant
    obtain ⟨hw, -, hroot⟩ := createUpdatePath_spec hg.length hg.depth hcreate
    rw [hsuite] at hw hroot
    exact HashInvariant.pathWritten hinv hw hg.length ⟨_, hroot⟩ hinputs hinj hne hi.grounded
      hi.chained fun k j n v _ => hi.stored k j n v
  | applyUpdatePath ht happly hroot hinputs ih =>
    obtain ⟨seen, hi⟩ := ih
    obtain ⟨hinv, d, hg⟩ := ht.reachable.invariant
    obtain ⟨hw, -⟩ := applyUpdatePath_spec hg.length hg.depth happly
    exact HashInvariant.pathWritten hinv hw hg.length hroot hinputs hinj hne hi.grounded
      hi.chained fun k j n v _ => hi.stored k j n v
  | externalPath ht hadd happly hroot hinputs ih =>
    obtain ⟨seen, hi⟩ := ih
    obtain ⟨hinv, d, hg⟩ := ht.reachable.invariant
    obtain ⟨a, d', ha, -, hadded, hg', -⟩ := addLeafNode_added hg hadd
    rw [leafToNodeIndex_eq] at ha
    obtain ⟨-, rfl⟩ := coord_inj.mp ha
    obtain ⟨hw, -⟩ := applyUpdatePath_spec hg'.length hg'.depth happly
    refine HashInvariant.pathWritten (hinv.added hadded) hw hg'.length hroot hinputs hinj hne
      hi.grounded (hi.chained.added hinv hadded) fun k j n v hoff hn hv => ?_
    refine stored_added hadded hi.stored ?_ hn hv
    rintro ⟨rfl, rfl⟩
    simp at hoff

end

/-! ## Building the original trees -/

/-- The tree has not outgrown `removeLeaves`: it has fewer than 2 ^ 31 - 1 nodes,
or exactly as many and no unmerged leaves. -/
def Condensable (t : RatchetTree) : Prop :=
  t.length < 2 ^ 31 - 1 ∨ t.length = 2 ^ 31 - 1 ∧
    ∀ k j p, slot t k j = some (.parent p) → p.unmergedLeaves = []

/-- Without parent nodes there is nothing to verify. -/
theorem verifyParentHashes_of_no_parent {t : RatchetTree} (h : Hash)
    (hnone : ∀ p, some (.parent p) ∉ t) : verifyParentHashes t h = .ok true := by
  simp only [verifyParentHashes]
  rw [if_pos]
  · rfl
  · rw [List.length_eq_zero_iff, List.filterMap_eq_nil_iff]
    rintro ⟨node, m⟩ hmem
    rcases node with _ | p | l
    · rfl
    · exact absurd (List.mem_of_getElem? (List.mem_zipIdx_iff_getElem?.mp hmem)) (hnone p)
    · rfl

theorem Condensable.originalTree {t : RatchetTree} {d : ℕ} (hc : Condensable t)
    (hlen : t.length = size d) {m q : ℕ} {p : ParentNode}
    (hp : slot t (m + 1) q = some (.parent p)) :
    ∃ t₀, originalTree t p.unmergedLeaves = .ok t₀ := by
  unfold WebcryptoMls.originalTree
  split_ifs with hnil
  · exact ⟨t, rfl⟩
  · have hd : d ≤ 29 := by
      by_contra hgt
      rcases hc with hlt | ⟨-, hall⟩
      · have hs := size_mono (show 30 ≤ d by omega)
        have : size 30 = 2 ^ 31 - 1 := rfl
        omega
      · exact hnil (by rw [hall _ _ p hp]; rfl)
    refine condenseRatchetTreeAfterRemove_returns (k := m + 1) (j := q) ?_ ?_
    · have hle := size_mono hd
      exact fun _ _ h => slot_eq_none_of_le (by simpa [hlen] using hle.trans h)
    · rw [slot_removeLeavesNode, Places.without, if_neg (by omega), hp]
      simp

theorem Reached.verifyParentHashes_of_condensable {h : Hash} {S : Set Bytes} {t : RatchetTree}
    (hinj : Set.InjOn h.digest S) (hne : ∀ y, h.digest y ≠ []) (ht : Reached h S t)
    (hcondense : Condensable t) : verifyParentHashes t h = .ok true := by
  have hd : ∀ d, t.length = size d → d ≤ 30 := by
    intro d hlen
    by_contra hgt
    have hs := size_mono (show 31 ≤ d by omega)
    have : size 31 = 2 ^ 32 - 1 := rfl
    rcases hcondense with hlt | ⟨heq, -⟩ <;> omega
  cases ht with
  | settled ht =>
    obtain ⟨hinv, d, hg⟩ := ht.reachable.invariant
    obtain ⟨seen, hi⟩ := ht.hashInvariant hinj hne
    have hverifiable : Verifiable h S seen d t := by
      refine ⟨hinv, hd d hg.length, hg.length, hi.chained, hi.grounded,
        fun m q p k j n v hp _ hn hv => ?_, fun m q p hp => hcondense.originalTree hg.length hp⟩
      obtain ⟨n₀, hn₀, rfl, -⟩ := originalPlaces_eq_some hn
      rw [getParentHash_without] at hv
      exact hi.stored k j n₀ v hn₀ hv
    exact hverifiable.verifyParentHashes hne
  | joining ht hadd =>
    obtain ⟨hinv, d, hg⟩ := ht.reachable.invariant
    obtain ⟨seen, hi⟩ := ht.hashInvariant hinj hne
    obtain ⟨i, d', -, -, ha, hg', -⟩ := addLeafNode_added hg hadd
    have hverifiable : Verifiable h S seen d' t := by
      refine ⟨hinv.added ha, hd d' hg'.length, hg'.length, hi.chained.added hinv ha, hi.grounded,
        fun m q p k j n v hp hb hn hv => ?_, fun m q p hp => hcondense.originalTree hg'.length hp⟩
      obtain ⟨n₀, hn₀, rfl, hrem⟩ := originalPlaces_eq_some hn
      rw [getParentHash_without] at hv
      refine stored_added ha hi.stored ?_ hn₀ hv
      -- the new leaf is unmerged at every parent above it
      rintro ⟨rfl, rfl⟩
      obtain ⟨p₀, -, -, -, hu⟩ := ha.parent hp
      refine hrem ⟨rfl, ?_⟩
      rw [hu, if_pos (InOrder.below_leaf.mp hb)]
      simp
    exact hverifiable.verifyParentHashes hne

/-- In every tree of a run that has no parent nodes or has not outgrown
`removeLeaves`, the parent hashes verify. -/
theorem reached_parent_hashes_verify {h : Hash} {S : Set Bytes} {t : RatchetTree}
    (hinj : Set.InjOn h.digest S) (hne : ∀ y, h.digest y ≠ []) (ht : Reached h S t)
    (hcondense : (∀ p, some (.parent p) ∉ t) ∨ Condensable t) :
    verifyParentHashes t h = .ok true := by
  rcases hcondense with hnone | hcondense
  · exact verifyParentHashes_of_no_parent h hnone
  · exact ht.verifyParentHashes_of_condensable hinj hne hcondense

/-- Three members, the first of whom has committed. -/
theorem reached_parent_hashes_verify_three : ∃ created, plainPath threeLeaves = .ok created ∧
    verifyParentHashes created.tree plainHash = .ok true := by
  have h₂ : addLeafNode [some (.leaf default)] default =
      .ok ([some (.leaf default), none, some (.leaf default)], 2) := rfl
  have h₃ : addLeafNode [some (.leaf default), none, some (.leaf default)] default =
      .ok (threeLeaves, 4) := rfl
  have ht : Settled plainHash Set.univ threeLeaves :=
    ((Settled.init rfl).addLeafNode rfl h₂).addLeafNode rfl h₃
  obtain ⟨created, hc⟩ : ∃ created, plainPath threeLeaves = .ok created :=
    exists_ok_of_toBool (by decide +kernel)
  have hlen : created.tree.length = size 2 :=
    (createUpdatePath_spec (d := 2) rfl (by omega) hc).1.length
  refine ⟨created, hc, reached_parent_hashes_verify (S := Set.univ) (fun a _ b _ hab => ?_)
    (fun y => ?_) (.settled (ht.createUpdatePath rfl hc (Set.subset_univ _))) (.inr (.inl ?_))⟩
  · exact List.cons_injective hab
  · exact List.cons_ne_nil _ _
  · rw [hlen]
    decide

/-! ## The tree that is not condensed -/

/-- What is left of a tree with a leaf past the first 2 ^ 29 has no size the shift
can find. -/
theorem removeLeaves_never_ends {t t' : RatchetTree} {U : List ℕ} (hleaf : slot t 0 (2 ^ 29) ≠ none)
    (hU : 2 ^ 29 ∉ U) : removeLeaves t U ≠ .ok t' := by
  intro h
  have hslot := slot_removeLeaves h 0 (2 ^ 29)
  obtain ⟨d, hd, hlen, -⟩ := condenseRatchetTreeAfterRemove_spec h
  have hout : slot t' 0 (2 ^ 29) = none := by
    apply slot_eq_none_of_le
    have := size_mono hd
    have h29 : size 29 = 2 ^ 30 - 1 := rfl
    rw [InOrder.index_zero]
    omega
  rw [hout, Places.without, if_neg fun h => hU h.2] at hslot
  exact hleaf (Option.map_eq_none_iff.mp hslot.symm)

/-- In a tree of depth 30 in which a parent lists a leaf of the left half, the
verification does not return. -/
theorem verifyParentHashes_never_ends {t : RatchetTree} {h : Hash} (ht : TreeInvariant t)
    (hlen : t.length = size 30) (hleaf : slot t 0 (2 ^ 29) ≠ none) {k j u : ℕ} {p : ParentNode}
    (hp : slot t k j = some (.parent p)) (hu : u ∈ p.unmergedLeaves) (hk : k ≤ 29)
    (hu29 : u < 2 ^ 29) (b : Bool) :
    verifyParentHashes t h ≠ .ok b := by
  intro hok
  obtain ⟨huj, hune⟩ := ht.unmerged k j p u hp hu
  obtain ⟨node, hnode⟩ := Option.ne_none_iff_exists'.mp hune
  have hpos : k ≠ 0 := by
    rintro rfl
    obtain ⟨l, hl⟩ := ht.typed.leaf j _ hp
    cases hl
  have hmem : (some node, index 0 u) ∈ t.zipIdx := by
    rw [List.mem_zipIdx_iff_getElem?]
    rw [slot_eq_getElem?] at hnode
    exact Option.join_eq_some_iff.mp hnode
  have hparent : (some (.parent p), index k j) ∈ t.zipIdx := by
    rw [List.mem_zipIdx_iff_getElem?]
    rw [slot_eq_getElem?] at hp
    exact Option.join_eq_some_iff.mp hp
  simp only [verifyParentHashes] at hok
  split_ifs at hok with hnone
  · refine absurd (List.length_eq_zero_iff.mp hnone) (List.ne_nil_of_mem (a := (index k j : ℤ)) ?_)
    exact List.mem_filterMap.mpr ⟨_, hparent, rfl⟩
  obtain ⟨cov, hcov, -⟩ := bind_eq_ok.mp hok
  obtain ⟨c, c', hround⟩ := foldlM_round_ok hcov hmem
  have hcoord : ((index 0 u : ℕ) : ℤ) = coord 0 u := rfl
  have hleaf0 : isLeaf (coord 0 u) = true := isLeaf_coord 0 u
  simp only [hcoord, hleaf0, Option.isNone_some, Bool.not_true, Bool.or_self, Bool.false_eq_true,
    if_false, hlen, leafWidth_size, root_two_pow (le_refl 30)] at hround
  have hne : coord 0 u ≠ coord 30 0 := fun h => by have := (coord_inj.mp h).1; omega
  rw [coverageLoop, if_neg hne, nodeAt_coord, hnode] at hround
  obtain ⟨⟨ph, idx⟩, hcalc, -⟩ := bind_eq_ok.mp hround
  have hu30 : u < 2 ^ 30 := InOrder.leaf_lt_size.mp (hlen ▸ index_lt_of_slot hnode)
  rcases ht.typed.nextAbove_or_blank 0 u with ⟨m, q, hnext⟩ | hblank
  · have hmk : m + 1 ≤ k := by
      by_contra hgt
      have := hnext.blank k (by omega) (by omega)
      rw [Nat.sub_zero, huj, hp] at this
      cases this
    have hq := hnext.node
    rw [Nat.sub_zero] at hq
    have huq : u ∈ q.unmergedLeaves := ht.between k j p u (m + 1) q hp hu hmk hq
    have hnotq : 2 ^ 29 ∉ q.unmergedLeaves := by
      intro hmem
      have hdiv := (ht.unmerged _ _ q _ hq hmem).1
      rw [Nat.pow_div (by omega) (by omega)] at hdiv
      have := InOrder.div_two_pow_lt (k := m + 1) (by omega) hu29
      omega
    rw [calculateParentHash_next hlen le_rfl (by omega) (by simpa using hu30) hnext] at hcalc
    obtain ⟨original, horig, -⟩ := bind_eq_ok.mp hcalc
    rw [originalTree, if_neg] at horig
    · exact removeLeaves_never_ends hleaf hnotq horig
    · exact fun h => List.ne_nil_of_mem huq (List.length_eq_zero_iff.mp h)
  · have := hblank k (by omega)
    rw [Nat.sub_zero, huj, hp] at this
    cases this

/-- Such a tree is reached: 2 ^ 29 + 1 leaves, the fourth of them added after the
first leaf committed. -/
theorem exists_reached_unverified : ∃ (h : Hash) (S : Set Bytes) (t : RatchetTree),
    Set.InjOn h.digest S ∧ (∀ y, h.digest y ≠ []) ∧ Reached h S t ∧
      verifyParentHashes t h ≠ .ok true := by
  have hP : ∃ t d, Settled plainHash Set.univ t ∧ FilledUpTo (2 ^ 29 + 1) d t ∧
      ∃ p, slot t 2 0 = some (.parent p) ∧ 3 ∈ p.unmergedLeaves :=
    exists_wide_unmerged (.init rfl) (fun _ _ _ ht h => ht.addLeafNode rfl h)
      (fun _ _ ht h => ht.createUpdatePath rfl h (Set.subset_univ _)) (by omega) (by omega)
  obtain ⟨t, d, ht, hf, p, hp, hu⟩ := hP
  obtain ⟨hinv, -⟩ := ht.reachable.invariant
  have hright : slot t 0 (2 ^ 29) ≠ none := (hf.leaf _).mpr (by omega)
  have hd : d = 30 := by
    obtain ⟨node, hn⟩ := Option.ne_none_iff_exists'.mp hright
    have hlt := InOrder.leaf_lt_size.mp (hf.length ▸ index_lt_of_slot hn)
    have := (Nat.pow_lt_pow_iff_right (a := 2) (by omega)).mp hlt
    have := hf.depth (by omega)
    omega
  exact ⟨plainHash, Set.univ, t, fun a _ b _ hab => List.cons_injective hab,
    fun y => List.cons_ne_nil _ _, .settled ht,
    verifyParentHashes_never_ends hinv (hd ▸ hf.length) hright hp hu (by omega) (by omega) true⟩

end WebcryptoMls
