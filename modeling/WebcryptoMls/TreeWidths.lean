import WebcryptoMls.HashCoordinates
import Mathlib.Data.Nat.Log

/-!
# Trees of any width

A tree that is handed to a join need not be as wide as a full one. What the operations need
of it is the full tree it lies in: the walks up that tree either reach its root or throw, and
every operation on a leaf writes that leaf and its ancestors alone.
-/
namespace WebcryptoMls
open InOrder (index size Below)

/-- The level of the root of the full tree around an array. -/
def rootLevel (n : ℕ) : ℕ := Nat.log 2 n

/-- The array is not empty, and the bit operators reach its end. -/
structure Walkable (n : ℕ) : Prop where
  pos : 0 < n
  lt : n < 2 ^ 31

namespace Walkable
variable {n : ℕ}

theorem rootLevel_le (h : Walkable n) : rootLevel n ≤ 30 := by
  have := Nat.log_lt_of_lt_pow h.pos.ne' h.lt
  exact Nat.lt_succ_iff.mp this

theorem pow_le (h : Walkable n) : 2 ^ rootLevel n ≤ n := Nat.pow_log_le_self 2 h.pos.ne'

theorem le_size (n : ℕ) : n ≤ size (rootLevel n) := by
  have hlt := Nat.lt_pow_succ_log_self (b := 2) (by omega) n
  have hsize := InOrder.size_add_one (rootLevel n)
  rw [rootLevel] at *
  omega

/-- Every place of the full tree can be hashed. -/
theorem size_le (h : Walkable n) : size (rootLevel n) ≤ size 30 :=
  InOrder.size_strictMono.monotone h.rootLevel_le

theorem rootFromNodeWidth_eq (h : Walkable n) : rootFromNodeWidth n = coord (rootLevel n) 0 := by
  have hd := h.rootLevel_le
  have hloop : log2Loop (n : ℤ) 32 0 = (rootLevel n + 1 : ℕ) :=
    log2Loop_eq h.pow_le (Nat.lt_pow_succ_log_self (by omega) n) hd 32 0 (by omega) (by omega)
  have hlog : log2 (n : ℤ) = (rootLevel n : ℕ) := by
    have hpos := h.pos
    rw [log2, if_neg (by omega), hloop]
    push_cast
    ring
  have hshl := shl_one hd
  have hpow := Nat.two_pow_pos (rootLevel n)
  rw [rootFromNodeWidth, hlog, hshl, coord, InOrder.index_root]
  omega

theorem root_eq (h : Walkable n) : root (leafWidth n) = coord (rootLevel n) 0 := by
  rw [root, nodeWidth_leafWidth]
  exact h.rootFromNodeWidth_eq

/-- A node below the root has its parent in the full tree. -/
theorem parent_eq_ok (h : Walkable n) {k j : ℕ} {p : ℤ}
    (hp : parent (coord k j) (leafWidth n) = .ok p) :
    k < rootLevel n ∧ j < 2 ^ (rootLevel n - k) ∧ p = coord (k + 1) (j / 2) := by
  have hd := h.rootLevel_le
  have hroot := h.root_eq
  have hfull : root (2 ^ rootLevel n) = coord (rootLevel n) 0 := root_two_pow hd
  unfold parent at hp
  rw [nodeWidth_leafWidth, hroot] at hp
  dsimp only at hp
  have hrange : ¬(coord k j < 0 ∨ coord k j ≥ (n : ℤ)) := by
    intro hout
    rw [if_pos hout] at hp
    cases hp
  rw [if_neg hrange] at hp
  have hne : coord k j ≠ coord (rootLevel n) 0 := by
    intro heq
    rw [if_pos heq] at hp
    cases hp
  rw [if_neg hne] at hp
  have hlt : index k j < size (rootLevel n) := by
    have := le_size n
    rw [coord] at hrange
    omega
  obtain ⟨hk, hj⟩ := InOrder.index_lt_size.mp hlt
  have hkd : k < rootLevel n := by
    refine lt_of_le_of_ne hk fun heq => hne ?_
    subst heq
    rw [Nat.sub_self, pow_zero, Nat.lt_one_iff] at hj
    rw [hj]
  refine ⟨hkd, hj, ?_⟩
  have hok := parent_coord hd hkd hj
  unfold parent at hok
  rw [nodeWidth_two_pow, hfull] at hok
  dsimp only at hok
  rw [if_neg (by rw [coord]; omega), if_neg hne] at hok
  exact Except.ok.inj (hp.symm.trans hok)

theorem directPathLoop_eq_ok (h : Walkable n) {fuel k j : ℕ} {l : List ℤ}
    (hk : k ≤ rootLevel n) (hj : j < 2 ^ (rootLevel n - k))
    (hl : directPathLoop (leafWidth n) (coord (rootLevel n) 0) fuel (coord k j) = .ok l) :
    l = pathOf (rootLevel n) k j := by
  induction fuel generalizing k j l with
  | zero => cases hl
  | succ fuel ih =>
    rw [directPathLoop] at hl
    split_ifs at hl with hroot
    · obtain ⟨rfl, rfl⟩ := coord_inj.mp hroot
      rw [← Except.ok.inj hl, pathOf, Nat.sub_self]
      rfl
    · obtain ⟨p, hp, hl⟩ := bind_eq_ok.mp hl
      obtain ⟨hlt, -, rfl⟩ := h.parent_eq_ok hp
      obtain ⟨rest, hrest, hl⟩ := bind_eq_ok.mp hl
      rw [← Except.ok.inj hl, ih hlt (half_lt hlt hj) hrest, pathOf_succ hlt]

/-- The direct path of a leaf, where the walk does not throw, is that of the full tree. -/
theorem directPath_eq_ok (h : Walkable n) {i : ℕ} {l : List ℤ}
    (hl : directPath (coord 0 i) (leafWidth n) = .ok l) :
    i < 2 ^ rootLevel n ∧ l = leafPath (rootLevel n) i := by
  unfold directPath at hl
  rw [nodeWidth_leafWidth, h.root_eq] at hl
  dsimp only at hl
  have hrange : ¬(coord 0 i < 0 ∨ coord 0 i ≥ (n : ℤ)) := by
    intro hout
    rw [if_pos hout] at hl
    cases hl
  rw [if_neg hrange] at hl
  have hi : i < 2 ^ rootLevel n := by
    have hsize := le_size n
    rw [coord] at hrange
    exact InOrder.leaf_lt_size.mp (by omega)
  have hpath := h.directPathLoop_eq_ok (Nat.zero_le _) (by simpa using hi) hl
  refine ⟨hi, hpath.trans ?_⟩
  rw [pathOf, leafPath]
  simp

theorem traverseToRootLoop_eq_ok {t : RatchetTree} (h : Walkable t.length) {T : Type}
    {f : ℤ → ParentNode → Option T} {fuel k j : ℕ} {x : T} {a : ℤ} (hk : k ≤ rootLevel t.length)
    (hj : j < 2 ^ (rootLevel t.length - k))
    (hr : traverseToRootLoop t (coord (rootLevel t.length) 0) f fuel (coord k j) =
      .ok (some (x, a))) :
    (∃ p, f a p = some x) ∧
      ∃ m, k ≤ m ∧ m < rootLevel t.length ∧ a = coord (m + 1) (j / 2 ^ (m + 1 - k)) := by
  induction fuel generalizing k j with
  | zero => cases hr
  | succ fuel ih =>
    rw [traverseToRootLoop] at hr
    split_ifs at hr
    · cases Except.ok.inj hr
    obtain ⟨n, hn, hr⟩ := bind_eq_ok.mp hr
    obtain ⟨hlt, -, rfl⟩ := h.parent_eq_ok hn
    have hstep : ((∃ p, f a p = some x) ∧ ∃ m, k + 1 ≤ m ∧ m < rootLevel t.length ∧
        a = coord (m + 1) (j / 2 / 2 ^ (m + 1 - (k + 1)))) →
        (∃ p, f a p = some x) ∧
          ∃ m, k ≤ m ∧ m < rootLevel t.length ∧ a = coord (m + 1) (j / 2 ^ (m + 1 - k)) := by
      rintro ⟨hf, m, hkm, hm, ha⟩
      refine ⟨hf, m, by omega, hm, ?_⟩
      rw [ha, quotient_succ (by omega)]
    split at hr
    · exact hstep (ih hlt (half_lt hlt hj) hr)
    · cases hr
    · rename_i p _
      split at hr
      · rename_i result hresult
        obtain ⟨rfl, rfl⟩ := Prod.mk.inj (Option.some.inj (Except.ok.inj hr))
        exact ⟨⟨p, hresult⟩, k, le_rfl, hlt, by simp⟩
      · exact hstep (ih hlt (half_lt hlt hj) hr)

/-- The nearest non-blank ancestor of a node is above it. -/
theorem findFirstNonBlankAncestor_eq_ok {t : RatchetTree} (h : Walkable t.length) {k j : ℕ} {a : ℤ}
    (hk : k < rootLevel t.length) (hj : j < 2 ^ (rootLevel t.length - k))
    (ha : findFirstNonBlankAncestor t (coord k j) = .ok a) :
    ∃ m, k ≤ m ∧ m < rootLevel t.length ∧ a = coord (m + 1) (j / 2 ^ (m + 1 - k)) := by
  unfold findFirstNonBlankAncestor traverseToRoot at ha
  rw [h.root_eq] at ha
  obtain ⟨found, hfound, ha⟩ := bind_eq_ok.mp ha
  cases found with
  | none =>
    refine ⟨rootLevel t.length - 1, by omega, by omega, ?_⟩
    rw [← Except.ok.inj ha, show rootLevel t.length - 1 + 1 = rootLevel t.length by omega,
      Nat.div_eq_of_lt hj]
  | some found =>
    obtain ⟨x, b⟩ := found
    obtain ⟨⟨p, hp⟩, hm⟩ := h.traverseToRootLoop_eq_ok hk.le hj hfound
    obtain rfl : b = x := Option.some.inj hp
    obtain rfl : b = a := Except.ok.inj ha
    exact hm

end Walkable

theorem siblingBelow_coord {k j m : ℕ} (hkm : k ≤ m)
    (hlt : index (m + 1) (j / 2 ^ (m + 1 - k)) < size 30) :
    siblingBelow (coord k j) (coord (m + 1) (j / 2 ^ (m + 1 - k))) =
      .ok (coord m (sib (j / 2 ^ (m - k)))) := by
  have h31 := size_lt_of_le (d := 30) le_rfl
  have hm := (InOrder.index_lt_size.mp hlt).1
  have hside := InOrder.index_lt_ancestor (k := k) (m := m + 1) (j := j) (by omega)
  rw [show m + 1 - k - 1 = m - k by omega] at hside
  have hq : j / 2 ^ (m + 1 - k) = j / 2 ^ (m - k) / 2 := by
    rw [show m + 1 - k = m - k + 1 by omega, InOrder.div_two_pow_succ]
  unfold siblingBelow
  by_cases heven : j / 2 ^ (m - k) % 2 = 0
  · rw [if_pos (by rw [coord, coord]; exact_mod_cast hside.mpr heven),
      right_coord (by omega) (by omega), sib, if_pos heven, hq,
      show 2 * (j / 2 ^ (m - k) / 2) + 1 = j / 2 ^ (m - k) + 1 by omega]
  · rw [if_neg (by rw [coord, coord]; exact_mod_cast mt hside.mp heven), left_coord (by omega), sib,
      if_neg heven, hq, show 2 * (j / 2 ^ (m - k) / 2) = j / 2 ^ (m - k) - 1 by omega]

/-! ## What is written -/

theorem slot_setNode_ne {t : RatchetTree} {n : ℤ} {k j : ℕ} (h : n ≠ coord k j) (v : Option Node) :
    slot (setNode t n v) k j = slot t k j := by
  unfold setNode
  split_ifs with hn
  · rfl
  · have hne : n.toNat ≠ index k j := fun heq => h (by rw [coord, ← heq]; omega)
    rw [slot_eq_getElem?, slot_eq_getElem?, List.getElem?_set_ne hne]

/-- The place is not the leaf and not above it. -/
def OffPath (i k j : ℕ) : Prop := i / 2 ^ k ≠ j

/-- The trees are of one width and differ at most at a leaf and above it. -/
structure DiffersOn (i : ℕ) (t t' : RatchetTree) : Prop where
  length : t'.length = t.length
  slot : ∀ k j, OffPath i k j → slot t' k j = slot t k j

namespace DiffersOn
variable {i : ℕ} {t t' t'' : RatchetTree}

theorem refl (i : ℕ) (t : RatchetTree) : DiffersOn i t t := ⟨rfl, fun _ _ _ => rfl⟩

theorem trans (h : DiffersOn i t t') (h' : DiffersOn i t' t'') : DiffersOn i t t'' where
  length := h'.length.trans h.length
  slot k j hoff := (h'.slot k j hoff).trans (h.slot k j hoff)

theorem setNode {k : ℕ} (v : Option Node) (t : RatchetTree) :
    DiffersOn i t (WebcryptoMls.setNode t (coord k (i / 2 ^ k)) v) where
  length := length_setNode ..
  slot k' j' hoff := slot_setNode_ne (fun heq => by
    obtain ⟨rfl, rfl⟩ := coord_inj.mp heq
    exact hoff rfl) v

theorem setNode_of_mem {d : ℕ} {n : ℤ} (hn : n ∈ leafPath d i) (v : Option Node) (t : RatchetTree) :
    DiffersOn i t (WebcryptoMls.setNode t n v) := by
  obtain ⟨m, -, rfl⟩ := List.mem_map.mp hn
  exact setNode v t

theorem setNode_leaf (v : Option Node) (t : RatchetTree) :
    DiffersOn i t (WebcryptoMls.setNode t (coord 0 i) v) := by
  have := setNode (i := i) (k := 0) v t
  rwa [pow_zero, Nat.div_one] at this

/-- A subtree off the path hashes as before. -/
theorem subtreeHashAt_eq (h : DiffersOn i t t') {k j : ℕ} (hoff : OffPath i k j) (hash : Hash) :
    subtreeHashAt (WebcryptoMls.slot t') hash k j = subtreeHashAt (WebcryptoMls.slot t) hash k j :=
  subtreeHashAt_congr fun k' j' hb => h.slot k' j' fun heq => hoff (hb.leaf heq)

end DiffersOn

section
variable {t t' : RatchetTree} {i : ℕ}

/-- The ancestor a parent hash binds is above the node. -/
theorem calculateParentHash_ancestor {h : Hash} {k : ℕ} {ph : Bytes} {a : ℤ}
    (hw : Walkable t.length) (hk : k ≤ rootLevel t.length) (hi : i < 2 ^ rootLevel t.length)
    (hcalc : calculateParentHash t (coord k (i / 2 ^ k)) h = .ok (ph, some a)) :
    ∃ m, k ≤ m ∧ m < rootLevel t.length ∧ a = coord (m + 1) (i / 2 ^ (m + 1)) := by
  unfold calculateParentHash at hcalc
  rw [hw.root_eq] at hcalc
  dsimp only at hcalc
  split at hcalc
  · cases Except.ok.inj hcalc
  rename_i hroot
  have hkd : k < rootLevel t.length := by
    refine lt_of_le_of_ne hk fun heq => hroot ?_
    rw [heq, InOrder.div_two_pow_eq_zero hi]
  obtain ⟨b, hb, hcalc⟩ := bind_eq_ok.mp hcalc
  obtain ⟨m, hkm, hm, rfl⟩ :=
    hw.findFirstNonBlankAncestor_eq_ok hkd (InOrder.div_two_pow_lt hk hi) hb
  rw [InOrder.div_two_pow_sub (by omega)] at hcalc
  suffices heq : coord (m + 1) (i / 2 ^ (m + 1)) = a from ⟨m, hkm, hm, heq.symm⟩
  split at hcalc
  · exact Option.some.inj (Prod.mk.inj (Except.ok.inj hcalc)).2
  obtain ⟨siblingIndex, -, hcalc⟩ := bind_eq_ok.mp hcalc
  split at hcalc
  · obtain ⟨original, -, hcalc⟩ := bind_eq_ok.mp hcalc
    obtain ⟨hash, -, hcalc⟩ := bind_eq_ok.mp hcalc
    obtain ⟨input, -, hcalc⟩ := bind_eq_ok.mp hcalc
    exact Option.some.inj (Prod.mk.inj (Except.ok.inj hcalc)).2
  · cases hcalc

theorem differsOn_addUnmergedLeaf {c c' : RatchetTree} {d : ℕ} {n : ℤ} (hn : n ∈ leafPath d i)
    (h : addUnmergedLeaf t i c n = .ok c') : DiffersOn i c c' := by
  unfold addUnmergedLeaf at h
  split at h
  · rw [← Except.ok.inj h]
    exact .refl i c
  · rw [← Except.ok.inj h]
    exact .setNode_of_mem hn _ c
  · cases h

theorem differsOn_addLeafNode {l : LeafNode} {n : ℤ} {blankLeaf : ℤ} (hw : Walkable t.length)
    (hblank : findBlankLeafNodeIndex t = some blankLeaf) (h : addLeafNode t l = .ok (t', n)) :
    ∃ i, blankLeaf = coord 0 i ∧ DiffersOn i t t' ∧
      ∃ path, directPath (coord 0 i) (leafWidth t.length) = .ok path := by
  obtain ⟨i, rfl, -⟩ := findBlankLeafNodeIndex_some hblank
  refine ⟨i, rfl, ?_⟩
  unfold addLeafNode at h
  rw [hblank] at h
  dsimp only at h
  rw [nodeToLeafIndex_coord, ok_bind] at h
  obtain ⟨dp, hdp, h⟩ := bind_eq_ok.mp h
  obtain ⟨-, rfl⟩ := hw.directPath_eq_ok hdp
  obtain ⟨copy, hcopy, h⟩ := bind_eq_ok.mp h
  obtain ⟨rfl, -⟩ := Prod.mk.inj (Except.ok.inj h)
  have hdiff : DiffersOn i t copy := foldlM_inv (P := DiffersOn i t) (.refl i t)
    (fun n hn b c hb hc => hb.trans (differsOn_addUnmergedLeaf hn hc)) hcopy
  exact ⟨hdiff.trans (.setNode_leaf _ copy), _, hdp⟩

theorem differsOn_blankPath {d : ℕ} (t : RatchetTree) : DiffersOn i t (blankPath t (leafPath d i)) := by
  unfold blankPath
  suffices hfold : ∀ (ns : List ℤ) (c : RatchetTree), (∀ n ∈ ns, n ∈ leafPath d i) →
      DiffersOn i c (ns.foldl (fun copy nodeIndex =>
        if nodeAt t nodeIndex ≠ none then setNode copy nodeIndex none else copy) c) from
    hfold _ t fun n hn => hn
  intro ns
  induction ns with
  | nil => exact fun c _ => .refl i c
  | cons n ns ih =>
    intro c hns
    rw [List.foldl_cons]
    refine .trans ?_ (ih _ fun m hm => hns m (List.mem_cons_of_mem n hm))
    split_ifs
    · exact .setNode_of_mem (hns n (List.mem_cons_self ..)) none c
    · exact .refl i c

theorem differsOn_updateLeafNode {l : LeafNode} (hw : Walkable t.length)
    (h : updateLeafNode t l i = .ok t') : DiffersOn i t t' ∧
      ∃ path, directPath (coord 0 i) (leafWidth t.length) = .ok path := by
  unfold updateLeafNode at h
  rw [leafToNodeIndex_eq] at h
  obtain ⟨dp, hdp, h⟩ := bind_eq_ok.mp h
  obtain ⟨-, rfl⟩ := hw.directPath_eq_ok hdp
  obtain rfl := Except.ok.inj h
  exact ⟨(differsOn_blankPath t).trans (.setNode_leaf _ _), _, hdp⟩

/-- Where the tree stays as wide as it was, the cut shows nowhere. -/
theorem differsOn_removeLeafNode (hw : Walkable t.length) (h : removeLeafNode t i = .ok t') :
    (t'.length = t.length → DiffersOn i t t') ∧
      ∃ path, directPath (coord 0 i) (leafWidth t.length) = .ok path := by
  unfold removeLeafNode at h
  rw [leafToNodeIndex_eq] at h
  obtain ⟨dp, hdp, h⟩ := bind_eq_ok.mp h
  obtain ⟨-, rfl⟩ := hw.directPath_eq_ok hdp
  obtain ⟨-, -, -, hslot, -⟩ := condenseRatchetTreeAfterRemove_spec h
  have hdiff := (differsOn_blankPath (i := i) (d := rootLevel t.length) t).trans
    (.setNode_leaf none _)
  exact ⟨fun hlen => ⟨hlen, fun k j hoff => (hslot k j).trans (hdiff.slot k j hoff)⟩, _, hdp⟩

/-! ## Paths -/

/-- The direct path does not throw, and what is filtered out of it lies on it. -/
structure PathOf (t : RatchetTree) (i : ℕ) (fdp : List ℤ) : Prop where
  lt : i < 2 ^ rootLevel t.length
  directPath : ∃ path, directPath (coord 0 i) (leafWidth t.length) = .ok path
  mem : ∀ n ∈ fdp, n ∈ leafPath (rootLevel t.length) i

theorem filteredDirectPathAndCopathResolution_pathOf {fdp : List PathNode}
    (hw : Walkable t.length) (h : filteredDirectPathAndCopathResolution i t = .ok fdp) :
    PathOf t i (fdp.map PathNode.nodeIndex) := by
  unfold filteredDirectPathAndCopathResolution at h
  rw [leafToNodeIndex_eq] at h
  obtain ⟨cp, -, h⟩ := bind_eq_ok.mp h
  obtain ⟨dp, hdp, h⟩ := bind_eq_ok.mp h
  obtain ⟨hi, rfl⟩ := hw.directPath_eq_ok hdp
  refine ⟨hi, ⟨_, hdp⟩, fun n hn => ?_⟩
  obtain ⟨node, hnode, rfl⟩ := List.mem_map.mp hn
  obtain ⟨nodes, hnodes, h⟩ := bind_eq_ok.mp h
  rw [← Except.ok.inj h] at hnode
  obtain ⟨⟨n, c⟩, hmem, hround⟩ := mem_of_mapM hnodes node (List.mem_filter.mp hnode).1
  obtain ⟨r, -, hround⟩ := bind_eq_ok.mp hround
  rw [← Except.ok.inj hround]
  exact (List.of_mem_zip hmem).1

theorem filteredDirectPath_pathOf {fdp : List ℤ} (hw : Walkable t.length)
    (h : filteredDirectPath i t = .ok fdp) : PathOf t i fdp := by
  unfold filteredDirectPath at h
  rw [leafToNodeIndex_eq] at h
  obtain ⟨cp, -, h⟩ := bind_eq_ok.mp h
  obtain ⟨dp, hdp, h⟩ := bind_eq_ok.mp h
  obtain ⟨hi, rfl⟩ := hw.directPath_eq_ok hdp
  refine ⟨hi, ⟨_, hdp⟩, fun n hn => ?_⟩
  obtain ⟨resolutions, -, h⟩ := bind_eq_ok.mp h
  rw [← Except.ok.inj h, List.mem_filterMap] at hn
  obtain ⟨⟨m, r⟩, hmem, hkeep⟩ := hn
  dsimp only at hkeep
  split_ifs at hkeep
  rw [← Option.some.inj hkeep]
  exact (List.of_mem_zip hmem).1

/-- Where the walk throws, the filtered path throws as it does. -/
theorem filteredDirectPath_error {e : MlsError}
    (h : directPath (coord 0 i) (leafWidth t.length) = .error e) :
    filteredDirectPath i t = .error e := by
  unfold filteredDirectPath copath
  rw [leafToNodeIndex_eq]
  dsimp only
  rw [h]
  split_ifs <;> rfl

theorem differsOn_applyInitialTreeUpdate {cs : CiphersuiteImpl} {fdp : List PathNode}
    {pathSecret : Bytes} {ps : List PathSecret} {d : ℕ}
    (hfdp : ∀ n ∈ fdp.map PathNode.nodeIndex, n ∈ leafPath d i)
    (h : applyInitialTreeUpdate fdp pathSecret i t cs = .ok (t', ps)) : DiffersOn i t t' := by
  refine foldlM_inv (P := fun state : RatchetTree × List PathSecret => DiffersOn i t state.1)
    (.refl i t) (fun node hnode b c hb hc => hb.trans ?_) h
  obtain ⟨secret, -, hc⟩ := bind_eq_ok.mp hc
  obtain ⟨nextPathSecret, -, hc⟩ := bind_eq_ok.mp hc
  obtain ⟨nextNodeSecret, -, hc⟩ := bind_eq_ok.mp hc
  obtain ⟨keyPair, -, hc⟩ := bind_eq_ok.mp hc
  obtain ⟨hpkePublicKey, -, hc⟩ := bind_eq_ok.mp hc
  rw [← Except.ok.inj hc]
  exact .setNode_of_mem (hfdp _ (List.mem_map_of_mem hnode)) _ b.1

end

end WebcryptoMls
