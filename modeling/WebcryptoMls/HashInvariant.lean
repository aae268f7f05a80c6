import WebcryptoMls.OriginalSubtrees

/-!
# The parent hashes of reachable trees

A written path chains every parent it writes: the next node it wrote below
carries the hash that binds it, computed over the sibling as it stood. The
parent hashes of a tree are kept in the order in which they were first computed,
each after the ones it was computed from.
-/
namespace WebcryptoMls
open InOrder (index size Below)

/-! ## The hashed inputs of a tree -/

/-- What is hashed when a tree with a new path is hashed and its parents without
unmerged leaves are bound. -/
def HashInputs (h : Hash) (t : RatchetTree) : Set Bytes :=
  { y | (∃ k j, index k j < t.length ∧ subtreeInputAt (slot t) h k j = .ok y) ∨
    ∃ m q p c x, slot t (m + 1) q = some (.parent p) ∧ p.unmergedLeaves = [] ∧ c / 2 = q ∧
      subtreeHashAt (slot t) h m c = .ok x ∧ encodeParentHashInput (bindingInput p x) = .ok y }

theorem treeHashRoot_coord {t : RatchetTree} {h : Hash} {d : ℕ} (hlen : t.length = size d)
    (hd : d ≤ 30) : treeHashRoot t h = subtreeHashAt (slot t) h d 0 := by
  have hroot : rootFromNodeWidth t.length = coord d 0 := by
    rw [← root_two_pow hd, root, nodeWidth_two_pow, hlen]
  rw [treeHashRoot, hroot]
  exact treeHash_coord (lt_of_lt_of_le (InOrder.index_lt_size.mpr ⟨le_rfl, by simp⟩) (size_mono hd))

/-- A subtree of a hashed subtree can be hashed. -/
theorem subtreeHashAt_below {s : Places} {h : Hash} {k j m c : ℕ} {x : Bytes}
    (hx : subtreeHashAt s h m c = .ok x) (hb : Below k j m c) :
    ∃ x', subtreeHashAt s h k j = .ok x' := by
  induction m generalizing c x with
  | zero =>
    obtain ⟨rfl, rfl⟩ := InOrder.below_zero.mp hb
    exact ⟨x, hx⟩
  | succ m ih =>
    obtain ⟨y, hy, -⟩ := subtreeHashAt_eq_ok.mp hx
    obtain ⟨o, l, r, -, hl, hr, -⟩ := subtreeInputAt_succ_eq_ok.mp hy
    rcases InOrder.below_succ.mp hb with ⟨rfl, rfl⟩ | hb | hb
    · exact ⟨x, hx⟩
    · exact ih hl hb
    · exact ih hr hb

open PrefixCode in
/-- Whatever is encoded in the hash input of a parent can be bound. -/
theorem encodeParentHashInput_ok {p : ParentNode} {l r z : Bytes}
    (hz : encodeParentNodeHashInput { parentNode := some p, leftHash := l, rightHash := r } = .ok z)
    {x : Bytes} (hx : x = l ∨ x = r) : ∃ y, encodeParentHashInput (bindingInput p x) = .ok y := by
  obtain ⟨o, ho⟩ := concat_part_ok hz
    (e := contramapEncoder (encodeOptional encodeParentNode) ParentNodeHashInput.parentNode)
    (by simp)
  obtain ⟨l', hl⟩ := concat_part_ok hz
    (e := contramapEncoder encodeVarLenData ParentNodeHashInput.leftHash) (by simp)
  obtain ⟨r', hr⟩ := concat_part_ok hz
    (e := contramapEncoder encodeVarLenData ParentNodeHashInput.rightHash) (by simp)
  obtain ⟨u, hu, -⟩ := bind_eq_ok.mp ho
  obtain ⟨k, hk⟩ := concat_part_ok hu
    (e := contramapEncoder encodeVarLenData ParentNode.hpkePublicKey) (by simp)
  obtain ⟨ph, hph⟩ := concat_part_ok hu
    (e := contramapEncoder encodeVarLenData ParentNode.parentHash) (by simp)
  obtain ⟨x', hx'⟩ : ∃ x', encodeVarLenData x = .ok x' := by
    rcases hx with rfl | rfl
    · exact ⟨l', hl⟩
    · exact ⟨r', hr⟩
  refine ⟨k ++ (ph ++ (x' ++ [])), concat_cons_eq_ok.mpr ⟨k, _, hk, ?_, rfl⟩⟩
  refine concat_cons_eq_ok.mpr ⟨ph, _, hph, ?_, rfl⟩
  exact concat_cons_eq_ok.mpr ⟨x', [], hx', rfl, rfl⟩

/-! ## Parent hashes over original subtrees -/

theorem slot_originalTree {t t₀ : RatchetTree} {p : ParentNode}
    (h : originalTree t p.unmergedLeaves = .ok t₀) : slot t₀ = originalPlaces t p := by
  unfold originalTree at h
  split_ifs at h with hnil
  · obtain rfl := Except.ok.inj h
    rw [originalPlaces_of_nil (List.length_eq_zero_iff.mp hnil)]
  · funext k j
    exact slot_removeLeaves h k j

section
variable {t : RatchetTree} {h : Hash} {d k j m : ℕ} {p : ParentNode}

theorem ancestor_sibling_lt (hlen : t.length = size d) (hd : d ≤ 30)
    (hnext : NextAbove (slot t) k j (m + 1) p) :
    index m (sib (j / 2 ^ (m - k))) < size 30 := by
  have hlt := hlen ▸ index_lt_of_slot hnext.node
  have hsib := sibling_of_ancestor (j := j) (Nat.lt_succ_iff.mp hnext.lt)
  exact lt_of_lt_of_le (child_lt_size hlt (by omega)) (size_mono hd)

theorem calculateParentHash_original (hlen : t.length = size d) (hd : d ≤ 30)
    (hj : j < 2 ^ (d - k)) (hnext : NextAbove (slot t) k j (m + 1) p) {t₀ : RatchetTree}
    (ht₀ : originalTree t p.unmergedLeaves = .ok t₀) :
    calculateParentHash t (coord k j) h = (do
      let s ← subtreeHashAt (originalPlaces t p) h m (sib (j / 2 ^ (m - k)))
      let ph ← bindParent h p s
      pure (ph, some (coord (m + 1) (j / 2 ^ (m + 1 - k))))) := by
  have hm := (InOrder.index_lt_size.mp (hlen ▸ index_lt_of_slot hnext.node)).1
  rw [calculateParentHash_next hlen hd hm hj hnext, ht₀, ok_bind,
    treeHash_coord (ancestor_sibling_lt hlen hd hnext), slot_originalTree ht₀]

end

/-! ## The nodes of a written path -/

/-- A node below a place of the path but off the path is below a copath node. -/
theorem exists_fork {k' j' m i : ℕ} (hb : Below k' j' m (i / 2 ^ m)) (hne : i / 2 ^ k' ≠ j') :
    ∃ l, k' ≤ l ∧ l < m ∧ Below k' j' l (sib (i / 2 ^ l)) := by
  induction m with
  | zero =>
    obtain ⟨rfl, rfl⟩ := InOrder.below_zero.mp hb
    exact absurd rfl hne
  | succ m ih =>
    obtain ⟨hk, hj⟩ := hb
    rcases Nat.eq_or_lt_of_le hk with rfl | hlt
    · rw [Nat.sub_self, pow_zero, Nat.div_one] at hj
      exact absurd hj.symm hne
    · rw [show m + 1 - k' = m - k' + 1 by omega, InOrder.div_two_pow_succ,
        InOrder.div_two_pow_succ i m] at hj
      rcases eq_or_eq_sib hj with h | h
      · obtain ⟨l, h1, h2, h3⟩ := ih ⟨by omega, h⟩
        exact ⟨l, h1, by omega, h3⟩
      · exact ⟨m, by omega, by omega, by omega, h⟩

/-- The highest place of the path below level `m + 1` that is written. -/
theorem exists_entry (ls : List ℕ) (m : ℕ) :
    ∃ k ≤ m, (k = 0 ∨ ∃ l ∈ ls, k = l + 1) ∧ ∀ l ∈ ls, l < m → l + 1 ≤ k := by
  induction m with
  | zero => exact ⟨0, le_rfl, .inl rfl, fun l _ hl => by omega⟩
  | succ m ih =>
    by_cases hm : m ∈ ls
    · exact ⟨m + 1, le_rfl, .inr ⟨m, hm, rfl⟩, fun l _ hl => by omega⟩
    · obtain ⟨k, hk, hor, hall⟩ := ih
      refine ⟨k, by omega, hor, fun l hl hlt => hall l hl ?_⟩
      have : l ≠ m := fun h => hm (h ▸ hl)
      omega

section
variable {hash : Hash} {S : Set Bytes} {t t' : RatchetTree} {d i : ℕ} {c : LeafNodeCommit}

theorem PathWritten.mergedAbove (ht : Covered t) (hw : PathWritten hash t t' d i c)
    (hlen : t.length = size d) (k : ℕ) : MergedAbove t' i k := by
  intro m n hm hn
  obtain ⟨m, rfl⟩ := Nat.exists_eq_succ_of_ne_zero (show m ≠ 0 by omega)
  obtain ⟨-, p, hp, hnil, -⟩ := hw.on ht hlen hn
  exact ⟨p, hp, hnil⟩

/-- The leaf and every written parent store the parent hash computed for them. -/
theorem PathWritten.entry (hw : PathWritten hash t t' d i c) {k : ℕ}
    (hk : k = 0 ∨ ∃ l ∈ filteredLevels t d i, k = l + 1) :
    ∃ n v, slot t' k (i / 2 ^ k) = some n ∧ n.unmergedLeaves = [] ∧ getParentHash n = some v ∧
      HashedAt hash t' i k v := by
  rcases hk with rfl | ⟨l, hl, rfl⟩
  · refine ⟨_, c.parentHash, by rw [pow_zero, Nat.div_one, hw.leaf], rfl, ?_, hw.leafHash⟩
    rw [getParentHash, c.source]
    rfl
  · obtain ⟨p, hp, hnil, hh⟩ := hw.node l hl
    exact ⟨_, _, hp, hnil, rfl, hh⟩

/-- Between a written node and the next one above it the path is blank. -/
theorem PathWritten.nextAbove (ht : TreeInvariant t) (hw : PathWritten hash t t' d i c)
    (hlen : t.length = size d) {k m : ℕ} {p : ParentNode} (hkm : k ≤ m)
    (hp : slot t' (m + 1) (i / 2 ^ (m + 1)) = some (.parent p))
    (hall : ∀ l ∈ filteredLevels t d i, l < m → l + 1 ≤ k) :
    NextAbove (slot t') k (i / 2 ^ k) (m + 1) p := by
  refine ⟨by omega, ?_, fun m' h1 h2 => ?_⟩
  · rw [InOrder.div_two_pow_sub (by omega), hp]
  · rw [InOrder.div_two_pow_sub h1.le]
    by_contra hne
    obtain ⟨n, hn⟩ := Option.ne_none_iff_exists'.mp hne
    obtain ⟨l, rfl⟩ := Nat.exists_eq_succ_of_ne_zero (show m' ≠ 0 by omega)
    have := hall l (hw.on ht.isCovered hlen hn).1 (by omega)
    omega

/-- The copath nodes the filter leaves out are blank below. -/
theorem PathWritten.sole (ht : TreeInvariant t) (hw : PathWritten hash t t' d i c)
    (hlen : t.length = size d) {k m : ℕ} (hkm : k ≤ m) (hmd : m < d)
    (hk : k = 0 ∨ ∃ l ∈ filteredLevels t d i, k = l + 1)
    (hall : ∀ l ∈ filteredLevels t d i, l < m → l + 1 ≤ k) :
    SoleResolution (slot t') k (i / 2 ^ k) m (i / 2 ^ m) where
  below := InOrder.below_of_leaf hkm
  node := by
    obtain ⟨n, v, hn, hnil, -⟩ := hw.entry hk
    exact ⟨n, hn, hnil⟩
  only k' j' hb hne := by
    by_cases hon : i / 2 ^ k' = j'
    · subst hon
      apply InOrder.below_of_leaf
      by_contra hgt
      obtain ⟨l, rfl⟩ := Nat.exists_eq_succ_of_ne_zero (show k' ≠ 0 by omega)
      obtain ⟨n, hn⟩ := Option.ne_none_iff_exists'.mp hne
      have := hall l (hw.on ht.isCovered hlen hn).1 hb.1
      omega
    · obtain ⟨l, -, hlm, hbl⟩ := exists_fork hb hon
      rcases Nat.lt_or_ge l k with hlk | hkl
      · have hup : Below l (sib (i / 2 ^ l)) (l + 1) (i / 2 ^ (l + 1)) :=
          below_child (by rw [sib_div_two, InOrder.div_two_pow_succ])
        exact (hbl.trans hup).trans (InOrder.below_of_leaf hlk)
      · -- the copath node is not filtered, so there is nothing below it
        have hnot : l ∉ filteredLevels t d i := fun hl => by
          have := hall l hl hlm
          omega
        have hres : resolutionAt t l (sib (i / 2 ^ l)) = [] := by
          by_contra hres
          exact hnot (mem_filteredLevels.mpr ⟨by omega, hres⟩)
        rw [hw.off hon] at hne
        exact absurd (resolutionAt_eq_nil.mp hres k' j' hbl) hne

section
variable (ht : TreeInvariant t) (hw : PathWritten hash t t' d i c) (hlen : t.length = size d)
  (hroot : ∃ x, treeHashRoot t' hash = .ok x) (hS : HashInputs hash t' ⊆ S)
include ht hw hlen hroot hS

/-- A written parent is chained to the next node the path wrote below it. -/
theorem PathWritten.chained {m : ℕ} {p : ParentNode}
    (hp : slot t' (m + 1) (i / 2 ^ (m + 1)) = some (.parent p)) :
    p.unmergedLeaves = [] ∧ Chained hash S (slot t') m (i / 2 ^ (m + 1)) p := by
  obtain ⟨hm, p', hpp, hnil, -⟩ := hw.on ht.isCovered hlen hp
  obtain rfl := Node.parent.inj hpp
  obtain ⟨x₀, hx₀⟩ := hroot
  rw [treeHashRoot_coord hw.length hw.depth] at hx₀
  have hmd : m < d := (mem_filteredLevels.mp hm).1
  have hinTree : index (m + 1) (i / 2 ^ (m + 1)) < size d := pathNode_lt hmd hw.leaf_lt
  have hbelow : Below (m + 1) (i / 2 ^ (m + 1)) d 0 := by
    have := InOrder.below_of_leaf (i := i) (k := d) (l := m + 1) (by omega)
    rwa [InOrder.div_two_pow_eq_zero hw.leaf_lt] at this
  obtain ⟨x₁, hx₁⟩ := subtreeHashAt_below hx₀ hbelow
  obtain ⟨z, hz, -⟩ := subtreeHashAt_eq_ok.mp hx₁
  obtain ⟨o, l, r, ho, hl, hr, hz⟩ := subtreeInputAt_succ_eq_ok.mp hz
  obtain rfl : o = some p := by
    rw [hp] at ho
    obtain ⟨p', rfl, hp'⟩ := Option.map_eq_some_iff.mp ho.symm
    rw [Node.parent.inj hp']
  have hside : ∀ a, a / 2 = i / 2 ^ (m + 1) → ∃ x y, subtreeHashAt (slot t') hash m a = .ok x ∧
      InputsIn S (slot t') hash m a ∧ encodeParentHashInput (bindingInput p x) = .ok y ∧ y ∈ S := by
    intro a ha
    obtain ⟨x, hx, hxlr⟩ : ∃ x, subtreeHashAt (slot t') hash m a = .ok x ∧ (x = l ∨ x = r) := by
      rcases Nat.mod_two_eq_zero_or_one a with h | h
      · exact ⟨l, by rw [← hl]; congr 1; omega, .inl rfl⟩
      · exact ⟨r, by rw [← hr]; congr 1; omega, .inr rfl⟩
    obtain ⟨y, hy⟩ := encodeParentHashInput_ok hz hxlr
    refine ⟨x, y, hx, fun k j u hb hu => hS (.inl ⟨k, j, ?_, hu⟩), hy,
      hS (.inr ⟨m, _, p, a, x, hp, hnil, ha, hx, hy⟩)⟩
    rw [hw.length]
    exact (hb.trans (below_child ha)).index_lt_size hinTree
  refine ⟨hnil, hside, ?_⟩
  obtain ⟨k, hkm, hk, hall⟩ := exists_entry (filteredLevels t d i) m
  obtain ⟨n, v, hn, -, hnv, hh⟩ := hw.entry hk
  have hnext := hw.nextAbove ht hlen hkm hp hall
  obtain ⟨ref, hcalc⟩ := hh.calculateParentHash hw.length hw.depth hw.leaf_lt (by omega)
    (hw.mergedAbove ht.isCovered hlen k)
  have horig : originalTree t' p.unmergedLeaves = .ok t' := by rw [originalTree, hnil]; rfl
  rw [calculateParentHash_original hw.length hw.depth (InOrder.div_two_pow_lt (by omega) hw.leaf_lt)
    hnext horig, originalPlaces_of_nil hnil, InOrder.div_two_pow_sub hkm] at hcalc
  obtain ⟨x, hx, hcalc⟩ := bind_eq_ok.mp hcalc
  obtain ⟨v', hv', hcalc⟩ := bind_eq_ok.mp hcalc
  obtain ⟨rfl, -⟩ := Prod.mk.inj (Except.ok.inj hcalc)
  exact ⟨k, _, i / 2 ^ m, n, x, v', (InOrder.div_two_pow_succ i m).symm,
    hw.sole ht hlen hkm hmd hk hall, hn, hx, hv', hnv⟩

theorem ParentsChained.pathWritten (hc : ParentsChained hash S t) : ParentsChained hash S t' := by
  intro m q p hp
  by_cases hi : i / 2 ^ (m + 1) = q
  · subst hi
    obtain ⟨hnil, hch⟩ := hw.chained ht hlen hroot hS hp
    rwa [originalPlaces_of_nil hnil]
  · exact hc.off (fun k j hk => hw.off hk) hi hp

/-- A parent hash of the path uses values stored beside the path only. -/
theorem PathWritten.uses (hinj : Set.InjOn hash.digest S) (hne : ∀ y, hash.digest y ≠ []) {k : ℕ}
    {v w : Bytes} (hk : k ≤ d) (hh : HashedAt hash t' i k v) (hu : Uses hash S v w) :
    ∃ k' j' n, i / 2 ^ k' ≠ j' ∧ slot t k' j' = some n ∧ getParentHash n = some w := by
  obtain ⟨ref, hcalc⟩ := hh.calculateParentHash hw.length hw.depth hw.leaf_lt hk
    (hw.mergedAbove ht.isCovered hlen k)
  have hempty : v ≠ [] := by
    rintro rfl
    obtain ⟨-, input, y, s, m, c, -, -, hy, -⟩ := hu
    exact hne y hy
  rcases Nat.eq_or_lt_of_le hk with rfl | hkd
  · rw [InOrder.div_two_pow_eq_zero hw.leaf_lt, calculateParentHash_root hash hw.length hw.depth]
      at hcalc
    exact absurd (Prod.mk.inj (Except.ok.inj hcalc)).1.symm hempty
  have hj := InOrder.div_two_pow_lt hk hw.leaf_lt
  rcases (ht.pathWritten hlen hw).typed.nextAbove_or_blank k (i / 2 ^ k) with ⟨m, p, hnext⟩ | hblank
  · have hkm : k ≤ m := Nat.lt_succ_iff.mp hnext.lt
    have hp := hnext.node
    rw [InOrder.div_two_pow_sub hnext.lt.le] at hp
    obtain ⟨hnil, hch⟩ := hw.chained ht hlen hroot hS hp
    have horig : originalTree t' p.unmergedLeaves = .ok t' := by rw [originalTree, hnil]; rfl
    rw [calculateParentHash_original hw.length hw.depth hj hnext horig, originalPlaces_of_nil hnil,
      InOrder.div_two_pow_sub hkm] at hcalc
    obtain ⟨x, hx, hcalc⟩ := bind_eq_ok.mp hcalc
    obtain ⟨v', hv', hcalc⟩ := bind_eq_ok.mp hcalc
    obtain ⟨rfl, -⟩ := Prod.mk.inj (Except.ok.inj hcalc)
    obtain ⟨x', y, hx', hin, hy, hyS⟩ := hch.sides (sib (i / 2 ^ m))
      (by rw [sib_div_two, InOrder.div_two_pow_succ])
    obtain rfl : x = x' := Except.ok.inj (hx.symm.trans hx')
    obtain ⟨y', hy', hyv⟩ := bindParent_eq_ok.mp hv'
    obtain rfl : y = y' := Except.ok.inj (hy.symm.trans hy')
    obtain ⟨k', j', n, hb, hn, hnw⟩ := hu.occurs hinj hy hyS hyv hx hin
    have hoff := not_below_sibling hb
    exact ⟨k', j', n, hoff, by rw [← hw.off hoff, hn], hnw⟩
  · rw [calculateParentHash_blank hash hw.length hw.depth hkd hj hblank] at hcalc
    exact absurd (Prod.mk.inj (Except.ok.inj hcalc)).1.symm hempty

end

end

/-! ## The order of the stored parent hashes -/

/-- The parents are chained, and each parent hash of the tree was put in after
those it uses. -/
structure HashInvariant (h : Hash) (S : Set Bytes) (seen : List Bytes) (t : RatchetTree) : Prop where
  grounded : Chains.Grounded (Uses h S) seen
  chained : ParentsChained h S t
  stored : ∀ k j n v, slot t k j = some n → getParentHash n = some v → v = [] ∨ v ∈ seen

theorem hashInvariant_singleton {h : Hash} {S : Set Bytes} {l : LeafNode}
    (hl : l.info.parentHash = none) : HashInvariant h S [] [some (.leaf l)] where
  grounded := .nil
  chained m q p hp := by
    rw [slot_singleton, if_neg (by omega)] at hp
    cases hp
  stored k j n v hn hv := by
    rw [slot_singleton] at hn
    split_ifs at hn
    rw [← Option.some.inj hn, getParentHash, hl] at hv
    cases hv

theorem getParentHash_addUnmerged (i : ℕ) (n : Node) :
    getParentHash (n.addUnmerged i) = getParentHash n := by
  cases n <;> rfl

section
variable {h : Hash} {S : Set Bytes} {seen : List Bytes} {t t' : RatchetTree} {i : ℕ}

/-- An Add leaves the parent hashes of all other nodes. -/
theorem stored_added {l : LeafNode} (ha : Added t t' i l)
    (hs : ∀ k j n v, slot t k j = some n → getParentHash n = some v → v = [] ∨ v ∈ seen)
    {k j : ℕ} {n : Node} {v : Bytes} (hkj : ¬ (k = 0 ∧ j = i))
    (hn : slot t' k j = some n) (hv : getParentHash n = some v) : v = [] ∨ v ∈ seen := by
  rw [ha.slot, if_neg hkj] at hn
  split_ifs at hn
  · obtain ⟨n₀, hn₀, rfl⟩ := Option.map_eq_some_iff.mp hn
    rw [getParentHash_addUnmerged] at hv
    exact hs k j n₀ v hn₀ hv
  · exact hs k j n v hn hv

theorem HashInvariant.added {l : LeafNode} (hi : HashInvariant h S seen t) (ht : TreeInvariant t)
    (ha : Added t t' i l) (hl : l.info.parentHash = none) : HashInvariant h S seen t' where
  grounded := hi.grounded
  chained := hi.chained.added ht ha
  stored k j n v hn hv := by
    by_cases hkj : k = 0 ∧ j = i
    · obtain ⟨rfl, rfl⟩ := hkj
      rw [ha.leaf, if_pos rfl] at hn
      rw [← Option.some.inj hn, getParentHash, hl] at hv
      cases hv
    · exact stored_added ha hi.stored hkj hn hv

theorem HashInvariant.blanked {o : Option LeafNode} (hi : HashInvariant h S seen t)
    (hb : Blanked t t' i o) (ho : ∀ l, o = some l → l.info.parentHash = none) :
    HashInvariant h S seen t' where
  grounded := hi.grounded
  chained := hi.chained.blanked hb
  stored k j n v hn hv := by
    by_cases hj : i / 2 ^ k = j
    · subst hj
      cases k with
      | zero =>
        rw [pow_zero, Nat.div_one, hb.leaf] at hn
        obtain ⟨l, hl, rfl⟩ := Option.map_eq_some_iff.mp hn
        rw [getParentHash, ho l hl] at hv
        cases hv
      | succ k =>
        rw [hb.path] at hn
        cases hn
    · exact hi.stored k j n v (by rw [← hb.off k j hj, hn]) hv

/-- The parent hashes of a new path only use what is stored beside the path, so
they can be put in now. -/
theorem HashInvariant.pathWritten {d : ℕ} {c : LeafNodeCommit} (ht : TreeInvariant t)
    (hw : PathWritten h t t' d i c) (hlen : t.length = size d)
    (hroot : ∃ x, treeHashRoot t' h = .ok x) (hS : HashInputs h t' ⊆ S)
    (hinj : Set.InjOn h.digest S) (hne : ∀ y, h.digest y ≠ [])
    (hg : Chains.Grounded (Uses h S) seen) (hc : ParentsChained h S t)
    (hs : ∀ k j n v, i / 2 ^ k ≠ j → slot t k j = some n → getParentHash n = some v →
      v = [] ∨ v ∈ seen) : ∃ seen', HashInvariant h S seen' t' := by
  let new := (List.range (d + 1)).filterMap fun k => (slot t' k (i / 2 ^ k)).bind getParentHash
  have hnew : ∀ v ∈ new, ∀ w, Uses h S v w → w ∈ seen := by
    intro v hv w hu
    obtain ⟨k, hk, hkv⟩ := List.mem_filterMap.mp hv
    obtain ⟨n, hn, hnv⟩ := Option.bind_eq_some_iff.mp hkv
    have hentry : k = 0 ∨ ∃ l ∈ filteredLevels t d i, k = l + 1 := by
      rcases Nat.eq_zero_or_pos k with rfl | hpos
      · exact .inl rfl
      · obtain ⟨l, rfl⟩ := Nat.exists_eq_succ_of_ne_zero (show k ≠ 0 by omega)
        exact .inr ⟨l, (hw.on ht.isCovered hlen hn).1, rfl⟩
    obtain ⟨n', v', hn', -, hnv', hh⟩ := hw.entry hentry
    obtain rfl : n = n' := Option.some.inj (hn.symm.trans hn')
    obtain rfl : v = v' := Option.some.inj (hnv.symm.trans hnv')
    have hkd : k ≤ d := by have := List.mem_range.mp hk; omega
    obtain ⟨k', j', n', hoff, hn', hnw⟩ := hw.uses ht hlen hroot hS hinj hne hkd hh hu
    exact (hs k' j' n' w hoff hn' hnw).resolve_left hu.1
  obtain ⟨seen', hg', hsub, hnewsub⟩ := hg.extend hnew
  refine ⟨seen', hg', hc.pathWritten ht hw hlen hroot hS, fun k j n v hn hv => ?_⟩
  by_cases hj : i / 2 ^ k = j
  · subst hj
    have hkd := (InOrder.index_lt_size.mp (hw.length ▸ index_lt_of_slot hn)).1
    refine .inr (hnewsub (List.mem_filterMap.mpr ⟨k, List.mem_range.mpr (by omega), ?_⟩))
    rw [hn, Option.bind_some, hv]
  · exact (hs k j n v hj (by rw [← hw.off hj, hn]) hv).imp id fun hm => hsub hm

end

end WebcryptoMls
