import WebcryptoMls.TreeInvariant
import WebcryptoMls.HashCoordinates

/-!
# Reachable trees

Every tree the five operations build from a one-leaf tree has the invariant,
whatever arguments they are given. Two shortcuts of the code rest on it: an
update path leaves the unfiltered part of the direct path alone, and a Remove
cuts the array at its last non-blank node. Both are compared here with what the
protocol asks for.
-/
namespace WebcryptoMls
open InOrder (index size Below)

inductive Reachable : RatchetTree → Prop
  | init (leaf : LeafNode) : Reachable [some (.leaf leaf)]
  | addLeafNode {t t' : RatchetTree} {leaf : LeafNode} {n : ℤ} (ht : Reachable t)
      (h : addLeafNode t leaf = .ok (t', n)) : Reachable t'
  | updateLeafNode {t t' : RatchetTree} {leaf : LeafNode} {i : ℕ} (ht : Reachable t)
      (h : updateLeafNode t leaf i = .ok t') : Reachable t'
  | removeLeafNode {t t' : RatchetTree} {i : ℕ} (ht : Reachable t)
      (h : removeLeafNode t i = .ok t') : Reachable t'
  | createUpdatePath {t : RatchetTree} {i : ℕ} {gc : GroupContext} {cs : CiphersuiteImpl}
      {key : cs.signature.SignatureSecretKey} {coins : PathCoins} {exclude : List ℤ}
      {patch : ResolvedLeafNodePatch cs.signature} {created : CreatedPath cs} (ht : Reachable t)
      (h : createUpdatePath t i gc cs key coins exclude patch = .ok created) :
      Reachable created.tree
  | applyUpdatePath {t t' : RatchetTree} {i : ℕ} {path : UpdatePath} {hash : Hash}
      {isExternal : Bool} (ht : Reachable t)
      (h : applyUpdatePath t i path hash isExternal = .ok t') : Reachable t'

theorem Reachable.invariant {t : RatchetTree} (h : Reachable t) :
    TreeInvariant t ∧ ∃ d, Grown d t := by
  induction h with
  | init leaf => exact ⟨treeInvariant_singleton leaf, 0, grown_singleton _⟩
  | addLeafNode _ h ih =>
    obtain ⟨hinv, d, hg⟩ := ih
    obtain ⟨i, d', -, -, hadd, hg', -⟩ := addLeafNode_added hg h
    exact ⟨hinv.added hadd, d', hg'⟩
  | updateLeafNode _ h ih =>
    obtain ⟨hinv, d, hg⟩ := ih
    obtain ⟨hb, hg'⟩ := updateLeafNode_blanked hg h
    exact ⟨hinv.blanked hb, d, hg'⟩
  | removeLeafNode _ h ih =>
    obtain ⟨hinv, d, hg⟩ := ih
    obtain ⟨hb, d', -, hg'⟩ := removeLeafNode_blanked hinv.isCovered hg h
    exact ⟨hinv.blanked hb, d', hg'⟩
  | createUpdatePath _ h ih =>
    obtain ⟨hinv, d, hg⟩ := ih
    obtain ⟨hw, -⟩ := createUpdatePath_spec hg.length hg.depth h
    exact ⟨hinv.pathWritten hg.length hw, d, hg.pathWritten hw⟩
  | applyUpdatePath _ h ih =>
    obtain ⟨hinv, d, hg⟩ := ih
    obtain ⟨hw, -⟩ := applyUpdatePath_spec hg.length hg.depth h
    exact ⟨hinv.pathWritten hg.length hw, d, hg.pathWritten hw⟩

/-! ## Blanking the whole direct path first -/

/-- The tree of a received path as the protocol builds it: the whole direct path
is blanked before the filtered nodes are written. -/
def blankThenWrite (tree : RatchetTree) (senderLeafIndex : ℕ) (path : UpdatePath) (h : Hash) :
    Except MlsError RatchetTree := do
  let dp ← directPath (leafToNodeIndex senderLeafIndex) (leafWidth tree.length)
  let blanked := dp.foldl (fun copy n => setNode copy n none) tree
  let copy := setNode blanked (leafToNodeIndex senderLeafIndex) (some (.leaf path.leafNode.leaf))
  let fdp ← filteredDirectPath senderLeafIndex tree
  (fdp.reverse.zip path.nodes.reverse).foldlM
    (fun copy (nodeIndex, node) => writePathNode h copy nodeIndex node) copy

/-- Two arrays that differ at some levels of one path only. -/
structure DifferAt (c c' : RatchetTree) (i : ℕ) (ms : List ℕ) : Prop where
  length : c'.length = c.length
  slot : ∀ k j, (∀ m ∈ ms, ¬ (k = m + 1 ∧ j = i / 2 ^ (m + 1))) → slot c' k j = slot c k j

/-- Writing the path from the root down removes the difference level by level. -/
theorem writeReceived_congr {h : Hash} {d i : ℕ} {ps : List (ℕ × UpdatePathNode)}
    {c c' r : RatchetTree} (hlen : c.length = size d) (hd : d ≤ 30) (hi : i < 2 ^ d)
    (hps : ∀ p ∈ ps, p.1 < d) (hfall : (ps.map Prod.fst).Pairwise (· > ·))
    (hdiff : DifferAt c c' i (ps.map Prod.fst))
    (hmerged : ∀ m n, (∀ p ∈ ps, m ≠ p.1 + 1) → 0 < m → slot c m (i / 2 ^ m) = some n →
      ∃ p, n = .parent p ∧ p.unmergedLeaves = [])
    (hw : writeReceived h i ps c = .ok r) : writeReceived h i ps c' = .ok r := by
  induction ps generalizing c c' with
  | nil =>
    have : c' = c := ext_slot hdiff.length fun k j _ => hdiff.slot k j (by simp)
    rw [this]
    exact hw
  | cons p ps ih =>
    obtain ⟨hlow, hfall'⟩ := List.pairwise_cons.mp hfall
    have hlow : ∀ q ∈ ps, q.1 < p.1 := fun q hq => hlow q.1 (List.mem_map_of_mem hq)
    have hpd := hps p (List.mem_cons_self ..)
    have hlt : index (p.1 + 1) (i / 2 ^ (p.1 + 1)) < c.length := by rw [hlen]; exact pathNode_lt hpd hi
    have hlt' : index (p.1 + 1) (i / 2 ^ (p.1 + 1)) < c'.length := by rw [hdiff.length]; exact hlt
    rw [writeReceived, List.map_cons, List.foldlM_cons] at hw ⊢
    obtain ⟨c₁, hc₁, hw⟩ := bind_eq_ok.mp hw
    obtain ⟨⟨ph, q⟩, hcalc, hc₁⟩ := bind_eq_ok.mp hc₁
    have hagree : AgreeAbove c' c i (p.1 + 1) := by
      refine ⟨hdiff.length, fun k' j hk' => hdiff.slot k' j ?_⟩
      intro m hm
      rintro ⟨rfl, rfl⟩
      have hmle : m ≤ p.1 := by
        rcases List.mem_cons.mp hm with rfl | hm
        · exact le_rfl
        · obtain ⟨q, hq, rfl⟩ := List.mem_map.mp hm
          exact (hlow q hq).le
      rcases hk' with hk' | hk'
      · omega
      · exact hk' rfl
    have habove : MergedAbove c i (p.1 + 1) := fun m n hm hn =>
      hmerged m n (fun q hq => by
        rcases List.mem_cons.mp hq with rfl | hq
        · omega
        · have := hlow q hq
          omega) (by omega) hn
    have hcalc' : calculateParentHash c' (pathNode i p.1) h = .ok (ph, q) := by
      rw [pathNode, calculateParentHash_congr hagree hlen hd hi hpd habove]
      exact hcalc
    obtain rfl := Except.ok.inj hc₁
    simp only [writePathNode, hcalc', ok_bind]
    refine ih (by rw [length_setNode, hlen]) (fun q hq => hps q (List.mem_cons_of_mem _ hq)) hfall'
      ⟨by rw [length_setNode, length_setNode, hdiff.length], fun k j hkj => ?_⟩ ?_ hw
    · rw [pathNode, slot_setNode hlt, slot_setNode hlt']
      split_ifs with heq
      · rfl
      · apply hdiff.slot
        intro m hm
        rcases List.mem_cons.mp hm with rfl | hm
        · exact heq
        · exact hkj m hm
    · intro m n hm hm0 hn
      rw [pathNode, slot_setNode hlt] at hn
      split_ifs at hn with heq
      · exact ⟨_, (Option.some.inj hn).symm, rfl⟩
      · refine hmerged m n (fun q hq => ?_) hm0 hn
        rcases List.mem_cons.mp hq with rfl | hq
        · rintro rfl
          exact heq ⟨rfl, rfl⟩
        · exact hm q hq

theorem foldl_setNode_none (t : RatchetTree) (ns : List ℤ) :
    ns.foldl (fun copy n => setNode copy n none) t = writeNodes (fun _ => some none) t ns := rfl

/-- Where every non-blank node of the direct path is filtered, blanking the rest
first makes no difference. -/
theorem applyUpdatePath_eq_blankThenWrite {t t' : RatchetTree} {d i : ℕ} {path : UpdatePath}
    {h : Hash} {isExternal : Bool} (ht : TreeInvariant t) (hlen : t.length = size d) (hd : d ≤ 31)
    (happly : applyUpdatePath t i path h isExternal = .ok t') :
    blankThenWrite t i path h = .ok t' := by
  obtain ⟨hd30, hi, -, hcount, hwrite, -⟩ := applyUpdatePath_eq_ok hlen hd happly
  have hdp : directPath (coord 0 i) (2 ^ d) = .ok (leafPath d i) := directPath_leaf hd30 hi
  simp only [blankThenWrite, hlen, leafWidth_size, leafToNodeIndex_eq, hdp, ok_bind,
    filteredDirectPath_coord hlen hd30 hi, receivedNodes_zip hcount, foldl_setNode_none]
  have hlen₀ : (setNode t (coord 0 i) (some (.leaf path.leafNode.leaf))).length = size d := by
    rw [length_setNode, hlen]
  have hleaf : index 0 i < t.length := by rw [hlen]; exact InOrder.leaf_lt_size.mpr hi
  have hblank : ∀ k j, slot (setNode (writeNodes (fun _ => some none) t (leafPath d i)) (coord 0 i)
      (some (.leaf path.leafNode.leaf))) k j = if k = 0 ∧ j = i then some (.leaf path.leafNode.leaf)
        else if 0 < k ∧ k ≤ d ∧ i / 2 ^ k = j then none else slot t k j := by
    intro k j
    rw [slot_setNode (by simpa using hleaf),
      slot_writeNodes fun n hn => by rw [hlen]; exact leafPath_lt hi hn]
    simp only [mem_leafPath, Option.getD_some]
  refine writeReceived_congr hlen₀ hd30 hi (fun p hp => receivedNodes_lt hp) ?_ ⟨?_, ?_⟩ ?_ hwrite
  · rw [receivedNodes_fst hcount]
    exact filteredLevels_reverse_sorted t d i
  · simp [hlen]
  · intro k j hkj
    rw [hblank, slot_setNode hleaf]
    split_ifs with h0 hpath
    · rfl
    · -- an unfiltered node of the path is blank
      obtain ⟨hk, hkd, rfl⟩ := hpath
      obtain ⟨m, rfl⟩ := Nat.exists_eq_succ_of_ne_zero (show k ≠ 0 by omega)
      rw [Nat.succ_eq_add_one] at *
      by_contra hne
      obtain ⟨n, hn⟩ := Option.ne_none_iff_exists'.mp (Ne.symm hne)
      refine hkj m ?_ ⟨rfl, rfl⟩
      rw [receivedNodes_fst hcount, List.mem_reverse]
      exact ht.isCovered.mem_filteredLevels hkd hn
    · rfl
  · intro m n hm hm0 hn
    rw [slot_setNode hleaf, if_neg (by omega)] at hn
    obtain ⟨m, rfl⟩ := Nat.exists_eq_succ_of_ne_zero (show m ≠ 0 by omega)
    have hkd := (InOrder.index_lt_size.mp (hlen ▸ index_lt_of_slot hn)).1
    have hmem := ht.isCovered.mem_filteredLevels hkd hn
    rw [← List.mem_reverse, ← receivedNodes_fst hcount] at hmem
    obtain ⟨p, hp, hpm⟩ := List.mem_map.mp hmem
    exact absurd (by omega) (hm p hp)

/-! ## Dropping blank right halves -/

/-- The right half of a tree of depth `d + 1` has no leaf. -/
def rightHalfBlank (t : RatchetTree) (d : ℕ) : Bool :=
  (List.range (2 ^ d)).all fun i => (slot t 0 (2 ^ d + i)).isNone

/-- Drop the right half while all leaves in it are blank. -/
def dropRightHalves : ℕ → RatchetTree → RatchetTree
  | 0, t => t
  | d + 1, t => if rightHalfBlank t d then dropRightHalves d (t.take (size d)) else t

theorem rightHalfBlank_iff {t : RatchetTree} {d : ℕ} (hlen : t.length = size (d + 1)) :
    rightHalfBlank t d = true ↔ ∀ i, 2 ^ d ≤ i → slot t 0 i = none := by
  simp only [rightHalfBlank, List.all_eq_true, List.mem_range, Option.isNone_iff_eq_none]
  constructor
  · intro h i hi
    by_cases hlt : i < 2 ^ (d + 1)
    · rw [pow_succ] at hlt
      have := h (i - 2 ^ d) (by omega)
      rwa [Nat.add_sub_cancel' hi] at this
    · apply slot_eq_none_of_le
      rw [hlen]
      exact Nat.le_of_not_lt fun h => hlt (InOrder.leaf_lt_size.mp h)
  · exact fun h i _ => h _ (by omega)

theorem slot_take {t : RatchetTree} {n k j : ℕ} (h : index k j < n) :
    slot (t.take n) k j = slot t k j := by
  rw [slot_eq_getElem?, slot_eq_getElem?, List.getElem?_take_of_lt h]

/-- Dropping stops at the first depth with a leaf in the right half. -/
theorem dropRightHalves_eq_take {t : RatchetTree} {d d' : ℕ} (hlen : t.length = size d)
    (hd : d' ≤ d) (hblank : ∀ i, 2 ^ d' ≤ i → slot t 0 i = none)
    (hright : d' = 0 ∨ ∃ i, 2 ^ (d' - 1) ≤ i ∧ slot t 0 i ≠ none) :
    dropRightHalves d t = t.take (size d') := by
  induction d generalizing t with
  | zero =>
    obtain rfl : d' = 0 := by omega
    rw [dropRightHalves, List.take_of_length_le hlen.le]
  | succ d ih =>
    rw [dropRightHalves]
    rcases Nat.eq_or_lt_of_le hd with rfl | hlt
    · obtain ⟨i, hi, hne⟩ := hright.resolve_left (by omega)
      rw [if_neg, List.take_of_length_le hlen.le]
      exact fun h => hne ((rightHalfBlank_iff hlen).mp h i hi)
    · have hp := Nat.pow_le_pow_right (n := 2) (by omega) (show d' ≤ d by omega)
      have hs := InOrder.size_strictMono (show d < d + 1 by omega)
      have hlen' : (t.take (size d)).length = size d := by rw [List.length_take]; omega
      rw [if_pos ((rightHalfBlank_iff hlen).mpr fun i hi => hblank i (by omega)),
        ih hlen' (by omega), List.take_take, Nat.min_eq_left (size_mono (by omega))]
      · intro i hi
        by_cases hin : index 0 i < size d
        · rw [slot_take hin, hblank i hi]
        · exact slot_eq_none_of_le (by omega)
      · refine hright.imp id fun ⟨i, hi, hne⟩ => ⟨i, hi, ?_⟩
        have hid : i < 2 ^ d := by
          by_contra hge
          exact hne (hblank i (by omega))
        rwa [slot_take (InOrder.leaf_lt_size.mpr hid)]

/-- The tree of a Remove before it is cut. -/
def blankLeafAndPath (tree : RatchetTree) (removedLeafIndex : ℕ) : Except MlsError RatchetTree := do
  let pathToBlank ← directPath (leafToNodeIndex removedLeafIndex) (leafWidth tree.length)
  pure (setNode (blankPath tree pathToBlank) (leafToNodeIndex removedLeafIndex) none)

/-- Cutting at the last non-blank node drops exactly the right halves without
leaves: the last node is never a parent over a blank right half. -/
theorem removeLeafNode_eq_dropRightHalves {t t' : RatchetTree} {d i : ℕ} (ht : TreeInvariant t)
    (hg : Grown d t) (h : removeLeafNode t i = .ok t') :
    ∃ blanked, blankLeafAndPath t i = .ok blanked ∧ blanked.length = size d ∧
      t' = dropRightHalves d blanked := by
  obtain ⟨hd30, hi, -⟩ := removeLeafNode_spec hg.length hg.depth h
  obtain ⟨hb, d', -, hg'⟩ := removeLeafNode_blanked ht.isCovered hg h
  have hdp : directPath (coord 0 i) (2 ^ d) = .ok (leafPath d i) := directPath_leaf hd30 hi
  set blanked := setNode (blankPath t (leafPath d i)) (coord 0 i) none with hblanked
  have hlen : blanked.length = size d := by simp [hblanked, blankPath_eq, hg.length]
  have hslot : ∀ k j, slot t' k j = slot blanked k j := by
    rw [removeLeafNode, hg.length, leafWidth_size, leafToNodeIndex_eq, hdp, ok_bind] at h
    obtain ⟨-, -, -, hs, -⟩ := condenseRatchetTreeAfterRemove_spec h
    exact hs
  have hbeyond : ∀ j, 2 ^ d' ≤ j → slot blanked 0 j = none := by
    intro j hj
    rw [← hslot]
    apply slot_eq_none_of_le
    rw [hg'.length]
    exact Nat.le_of_not_lt fun hlt => absurd (InOrder.leaf_lt_size.mp hlt) (by omega)
  have hright : d' = 0 ∨ ∃ j, 2 ^ (d' - 1) ≤ j ∧ slot blanked 0 j ≠ none :=
    hg'.right.imp id fun ⟨j, hj, hne⟩ => ⟨j, hj, by rwa [← hslot]⟩
  have hd' : d' ≤ d := by
    rcases Nat.eq_zero_or_pos d' with rfl | hpos
    · omega
    · obtain ⟨j, hj, hne⟩ := hright.resolve_left (by omega)
      by_contra hgt
      refine hne (slot_eq_none_of_le ?_)
      rw [hlen]
      have hp := Nat.pow_le_pow_right (n := 2) (by omega) (show d ≤ d' - 1 by omega)
      exact Nat.le_of_not_lt fun hlt => absurd (InOrder.leaf_lt_size.mp hlt) (by omega)
  refine ⟨blanked, ?_, hlen, ?_⟩
  · rw [blankLeafAndPath, hg.length, leafWidth_size, leafToNodeIndex_eq, hdp, ok_bind]
    rfl
  · rw [dropRightHalves_eq_take hlen hd' hbeyond hright]
    have hs := size_mono hd'
    apply ext_slot
    · rw [hg'.length, List.length_take, hlen, Nat.min_eq_left hs]
    · intro k j hkj
      rw [hg'.length] at hkj
      rw [hslot, slot_take hkj]

/-! ## The shortcuts of the code -/

/-- What makes both shortcuts right, and what they amount to: a non-blank parent
has a non-blank leaf below each child; so the filter drops no non-blank node of
a direct path, a received path yields the tree that blanks the whole direct path
first, and a Remove yields the tree without its leafless right halves. -/
theorem reachable_shortcuts {t : RatchetTree} (ht : Reachable t) :
    (∀ k j n c, slot t (k + 1) j = some n → c / 2 = j →
      ∃ i leaf, i / 2 ^ k = c ∧ slot t 0 i = some (.leaf leaf)) ∧
    (∀ i dp, directPath (leafToNodeIndex i) (leafWidth t.length) = .ok dp →
      ∃ fdp, filteredDirectPath i t = .ok fdp ∧ ∀ n ∈ dp, nodeAt t n ≠ none → n ∈ fdp) ∧
    (∀ i path h isExternal t', applyUpdatePath t i path h isExternal = .ok t' →
      blankThenWrite t i path h = .ok t') ∧
    (∀ i t', removeLeafNode t i = .ok t' → ∃ blanked d, blankLeafAndPath t i = .ok blanked ∧
      blanked.length = size d ∧ t' = dropRightHalves d blanked) := by
  obtain ⟨hinv, d, hg⟩ := ht.invariant
  refine ⟨fun k j n c hn hc => ?_, fun i dp hdp => ?_, fun i path h isExternal t' happly => ?_,
    fun i t' hremove => ?_⟩
  · obtain ⟨i, hi, hne⟩ := hinv.covered k j n c hn hc
    obtain ⟨n', hn'⟩ := Option.ne_none_iff_exists'.mp hne
    obtain ⟨leaf, rfl⟩ := hinv.typed.leaf i n' hn'
    exact ⟨i, leaf, hi, hn'⟩
  · rw [hg.length, leafWidth_size, leafToNodeIndex_eq] at hdp
    obtain ⟨hd30, hi, rfl⟩ := directPath_eq_ok hg.depth hdp
    refine ⟨_, filteredDirectPath_coord hg.length hd30 hi, fun n hn hne => ?_⟩
    obtain ⟨m, hm, rfl⟩ := List.mem_map.mp hn
    obtain ⟨n', hn'⟩ := Option.ne_none_iff_exists'.mp hne
    exact List.mem_map_of_mem (hinv.isCovered.mem_filteredLevels (List.mem_range.mp hm) hn')
  · exact applyUpdatePath_eq_blankThenWrite hinv hg.length hg.depth happly
  · obtain ⟨blanked, hb, hlen, heq⟩ := removeLeafNode_eq_dropRightHalves hinv hg hremove
    exact ⟨blanked, d, hb, hlen, heq⟩

/-- The group context of the paths created in fixed trees. -/
def plainGroupContext : GroupContext where
  version := .mls10
  cipherSuite := .MLS_128_DHKEMX25519_AES128GCM_SHA256_Ed25519
  groupId := []
  epoch := 0
  treeHash := []
  confirmedTranscriptHash := []
  extensions := []

/-- A path of the first leaf, without a secret. -/
def plainPath (t : RatchetTree) : Except MlsError (CreatedPath plainSuite) :=
  createUpdatePath t 0 plainGroupContext plainSuite ([] : Bytes) ⟨[], [], fun _ => []⟩

/-- A tree of three members who have not committed. -/
def threeLeaves : RatchetTree :=
  [some (.leaf default), none, some (.leaf default), none, some (.leaf default), none, none]

theorem threeLeaves_reachable : Reachable threeLeaves := by
  have h₂ : addLeafNode [some (.leaf default)] default =
      .ok ([some (.leaf default), none, some (.leaf default)], 2) := rfl
  have h₃ : addLeafNode [some (.leaf default), none, some (.leaf default)] default =
      .ok (threeLeaves, 4) := rfl
  exact ((Reachable.init default).addLeafNode h₂).addLeafNode h₃

/-- The second of three leaves commits after the first one, or the third one is removed. -/
theorem reachable_shortcuts_three : ∃ (created second : CreatedPath plainSuite)
    (received removed : RatchetTree),
    plainPath threeLeaves = .ok created ∧
    createUpdatePath created.tree 1 plainGroupContext plainSuite ([] : Bytes)
      ⟨[2], [3], fun _ => []⟩ = .ok second ∧
    (∀ c, c / 2 = 0 → ∃ i leaf, i / 2 ^ 1 = c ∧ slot created.tree 0 i = some (.leaf leaf)) ∧
    (∃ fdp, filteredDirectPath 0 created.tree = .ok fdp ∧ ∀ n ∈ [1, 3], n ∈ fdp) ∧
    applyUpdatePath created.tree 1 second.updatePath plainHash false = .ok received ∧
    blankThenWrite created.tree 1 second.updatePath plainHash = .ok received ∧
    removeLeafNode created.tree 2 = .ok removed ∧
    ∃ blanked d, blankLeafAndPath created.tree 2 = .ok blanked ∧ blanked.length = size d ∧
      removed = dropRightHalves d blanked := by
  have h : (do
      let created ← plainPath threeLeaves
      let second ← createUpdatePath created.tree 1 plainGroupContext plainSuite ([] : Bytes)
        ⟨[2], [3], fun _ => []⟩
      let _ ← applyUpdatePath created.tree 1 second.updatePath plainHash false
      let _ ← removeLeafNode created.tree 2
      let dp ← directPath (leafToNodeIndex 0) (leafWidth created.tree.length)
      pure (dp, (slot created.tree 2 0).isSome, (slot created.tree 1 0).isSome)) =
      Except.ok ([1, 3], true, true) := by decide +kernel
  obtain ⟨created, hc, h⟩ := bind_eq_ok.mp h
  obtain ⟨second, hs, h⟩ := bind_eq_ok.mp h
  obtain ⟨received, happly, h⟩ := bind_eq_ok.mp h
  obtain ⟨removed, hremove, h⟩ := bind_eq_ok.mp h
  obtain ⟨dp, hdp, h⟩ := bind_eq_ok.mp h
  obtain ⟨rfl, hroot, hparent⟩ : dp = [1, 3] ∧ _ ∧ _ := by simpa using Except.ok.inj h
  obtain ⟨hleaf, hfilter, hblank, hdrop⟩ :=
    reachable_shortcuts (threeLeaves_reachable.createUpdatePath hc)
  obtain ⟨root, hnode⟩ := Option.isSome_iff_exists.mp hroot
  obtain ⟨fdp, hfdp, hmem⟩ := hfilter 0 _ hdp
  refine ⟨created, second, received, removed, hc, hs, fun c hchild => hleaf 1 0 root c hnode hchild,
    ⟨fdp, hfdp, ?_⟩, happly, hblank 1 _ _ _ _ happly, hremove, hdrop 2 _ hremove⟩
  intro n hn
  refine hmem n hn ?_
  rcases List.mem_pair.mp hn with rfl | rfl
  · exact Option.isSome_iff_ne_none.mp hparent
  · exact Option.isSome_iff_ne_none.mp hroot

end WebcryptoMls
