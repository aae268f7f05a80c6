import WebcryptoMls.RatchetTree

/-!
# What the tree operations write

Each operation is described by the length of the tree it returns and by what
every place of that tree holds. A leaf's ancestors are the quotients of its
index, so "on the direct path of leaf `i`" reads `i / 2 ^ k = j` throughout.
-/
namespace WebcryptoMls
open InOrder (index size)

/-- Leaf nodes stand at leaf places and parent nodes above them. -/
structure Typed (t : RatchetTree) : Prop where
  leaf : ∀ i n, slot t 0 i = some n → ∃ l, n = .leaf l
  parent : ∀ k j n, slot t (k + 1) j = some n → ∃ p, n = .parent p

theorem Typed.congr {t t' : RatchetTree} (ht : Typed t) (h : ∀ k j, slot t' k j = slot t k j) :
    Typed t' where
  leaf i n hn := ht.leaf i n (by rw [← h, hn])
  parent k j n hn := ht.parent k j n (by rw [← h, hn])

/-! ## Writing along a list of nodes -/

/-- Write what `g` says at each node it says something about. -/
def writeNodes (g : ℤ → Option (Option Node)) (t : RatchetTree) (ns : List ℤ) : RatchetTree :=
  ns.foldl (fun copy n => match g n with
    | none => copy
    | some v => setNode copy n v) t

@[simp] theorem length_writeNodes (g : ℤ → Option (Option Node)) (t : RatchetTree) (ns : List ℤ) :
    (writeNodes g t ns).length = t.length := by
  unfold writeNodes
  induction ns generalizing t with
  | nil => rfl
  | cons n ns ih =>
    rw [List.foldl_cons, ih]
    split <;> simp

theorem slot_writeNodes {g : ℤ → Option (Option Node)} {t : RatchetTree} {ns : List ℤ}
    (hns : ∀ n ∈ ns, ∃ k j, n = coord k j ∧ index k j < t.length) (k j : ℕ) :
    slot (writeNodes g t ns) k j =
      if coord k j ∈ ns then (g (coord k j)).getD (slot t k j) else slot t k j := by
  unfold writeNodes
  induction ns generalizing t with
  | nil => simp
  | cons n ns ih =>
    obtain ⟨k', j', rfl, hlt⟩ := hns n (List.mem_cons_self ..)
    have hstep : slot (match g (coord k' j') with
        | none => t
        | some v => setNode t (coord k' j') v) k j =
        if coord k j = coord k' j' then (g (coord k j)).getD (slot t k j) else slot t k j := by
      cases hg : g (coord k' j') with
      | none =>
        split_ifs with he
        · rw [he, hg]
          rfl
        · rfl
      | some v =>
        simp only [slot_setNode hlt, coord_inj]
        split_ifs with he
        · rw [he.1, he.2, hg]
          rfl
        · rfl
    have hlen : ∀ m ∈ ns, ∃ k j, m = coord k j ∧ index k j < (match g (coord k' j') with
        | none => t
        | some v => setNode t (coord k' j') v).length := by
      intro m hm
      obtain ⟨a, b, hab, hl⟩ := hns m (List.mem_cons_of_mem _ hm)
      refine ⟨a, b, hab, ?_⟩
      split <;> simp [hl]
    rw [List.foldl_cons, ih hlen, hstep]
    simp only [List.mem_cons]
    by_cases h1 : coord k j = coord k' j'
    · simp only [h1, if_true, true_or]
      split_ifs
      · cases g (coord k' j') <;> rfl
      · rfl
    · simp [h1]

/-! ## Direct paths -/

/-- The inner nodes above leaf `i`. -/
def leafPath (d i : ℕ) : List ℤ := (List.range d).map fun m => coord (m + 1) (i / 2 ^ (m + 1))

theorem mem_leafPath {d i k j : ℕ} :
    coord k j ∈ leafPath d i ↔ 0 < k ∧ k ≤ d ∧ i / 2 ^ k = j := by
  simp only [leafPath, List.mem_map, List.mem_range, coord_inj]
  constructor
  · rintro ⟨m, hm, rfl, rfl⟩
    exact ⟨by omega, by omega, rfl⟩
  · rintro ⟨hk, hd, rfl⟩
    exact ⟨k - 1, by omega, by omega, by rw [Nat.sub_add_cancel hk]⟩

theorem leafPath_lt {d i : ℕ} (hi : i < 2 ^ d) {n : ℤ} (hn : n ∈ leafPath d i) :
    ∃ k j, n = coord k j ∧ index k j < size d := by
  obtain ⟨m, hm, rfl⟩ := List.mem_map.mp hn
  exact ⟨_, _, rfl, InOrder.ancestor_lt_size (List.mem_range.mp hm) hi⟩

/-- A leaf has a direct path when it is in a tree the bit operators can address. -/
theorem directPath_eq_ok {d i : ℕ} {l : List ℤ} (hd : d ≤ 31)
    (h : directPath (coord 0 i) (2 ^ d) = .ok l) : d ≤ 30 ∧ i < 2 ^ d ∧ l = leafPath d i := by
  have hi : i < 2 ^ d := by
    by_contra hle
    exact directPath_of_le (by omega) l h
  have hd' : d ≤ 30 := by
    by_contra hgt
    obtain rfl : d = 31 := by omega
    exact directPath_widest _ l h
  rw [directPath_leaf hd' hi, Except.ok.injEq] at h
  exact ⟨hd', hi, h.symm⟩

/-! ## Blank leaves -/

theorem findBlankLeafNodeIndex_some {t : RatchetTree} {n : ℤ}
    (h : findBlankLeafNodeIndex t = some n) :
    ∃ i, n = coord 0 i ∧ index 0 i < t.length ∧ slot t 0 i = none ∧
      ∀ i' < i, slot t 0 i' ≠ none := by
  simp only [findBlankLeafNodeIndex, Option.map_eq_some_iff] at h
  obtain ⟨⟨v, m⟩, hfind, rfl⟩ := h
  obtain ⟨hp, m', hm', hget, hbefore⟩ := List.find?_eq_some_iff_getElem.mp hfind
  simp only [List.getElem_zipIdx, Nat.zero_add, Prod.mk.injEq] at hget
  obtain ⟨hv, rfl⟩ := hget
  simp only [List.length_zipIdx] at hm'
  obtain ⟨k, i, hki⟩ := InOrder.exists_index m'
  have hcoord : ((m' : ℕ) : ℤ) = coord k i := by rw [coord, hki]
  simp only [hcoord, isLeaf_coord, Bool.and_eq_true, decide_eq_true_eq, Option.isNone_iff_eq_none]
    at hp
  obtain ⟨hnone, rfl⟩ := hp
  refine ⟨i, hcoord, by omega, ?_, fun i' hi' => ?_⟩
  · rw [slot_eq_getElem?, ← hki, List.getElem?_eq_getElem hm', hv, hnone]
    rfl
  · have hlt : index 0 i' < m' := by simp only [InOrder.index_zero] at hki ⊢; omega
    have := hbefore (index 0 i') hlt
    have hc : ((index 0 i' : ℕ) : ℤ) = coord 0 i' := rfl
    simp only [List.getElem_zipIdx, Nat.zero_add, hc, isLeaf_coord, decide_true, Bool.and_true,
      Bool.not_eq_true', Option.isNone_eq_false_iff] at this
    rw [slot_eq_getElem?, List.getElem?_eq_getElem (by omega), Option.join_some]
    exact Option.isSome_iff_ne_none.mp this

theorem findBlankLeafNodeIndex_none {t : RatchetTree} (h : findBlankLeafNodeIndex t = none) (i : ℕ)
    (hi : index 0 i < t.length) : slot t 0 i ≠ none := by
  simp only [findBlankLeafNodeIndex, Option.map_eq_none_iff, List.find?_eq_none] at h
  have hmem : (t[index 0 i], index 0 i) ∈ t.zipIdx := by
    rw [List.mem_zipIdx_iff_getElem?]
    exact List.getElem?_eq_getElem hi
  have hc : ((index 0 i : ℕ) : ℤ) = coord 0 i := rfl
  have := h _ hmem
  simp only [hc, isLeaf_coord, decide_true, Bool.and_true, Option.isNone_iff_eq_none] at this
  rw [slot_eq_getElem?, List.getElem?_eq_getElem hi, Option.join_some]
  exact this

/-! ## Adding a leaf -/

/-- List leaf `i` as unmerged. -/
def Node.addUnmerged (i : ℕ) : Node → Node
  | .parent p => .parent { p with unmergedLeaves := p.unmergedLeaves ++ [i] }
  | .leaf l => .leaf l

theorem foldlM_addUnmergedLeaf {t : RatchetTree} {i : ℕ} {c c' : RatchetTree} {ns : List ℤ}
    (h : ns.foldlM (addUnmergedLeaf t i) c = .ok c') :
    c' = writeNodes (fun n => (nodeAt t n).map fun v => some (v.addUnmerged i)) c ns := by
  unfold writeNodes
  induction ns generalizing c with
  | nil => exact (Except.ok.inj h).symm
  | cons n ns ih =>
    rw [List.foldlM_cons] at h
    obtain ⟨c1, hc1, h⟩ := bind_eq_ok.mp h
    rw [List.foldl_cons, ih h]
    congr 1
    unfold addUnmergedLeaf at hc1
    cases hn : nodeAt t n with
    | none =>
      simp only [hn] at hc1
      simp only [hn, Option.map_none]
      exact (Except.ok.inj hc1).symm
    | some v =>
      simp only [hn] at hc1
      simp only [hn, Option.map_some]
      cases v with
      | parent p => exact (Except.ok.inj hc1).symm
      | leaf l => cases hc1

theorem slot_extend {t : RatchetTree} {d : ℕ} (hlen : t.length = size d) (l : LeafNode) (k j : ℕ) :
    slot (t ++ none :: some (.leaf l) :: List.replicate (t.length - 1) none) k j =
      if k = 0 ∧ j = 2 ^ d then some (.leaf l) else slot t k j := by
  have hs := InOrder.size_add_one d
  have hleaf : index 0 (2 ^ d) = t.length + 1 := by
    rw [InOrder.index_zero, hlen, hs, pow_succ]
    ring
  rw [slot_eq_getElem?, slot_eq_getElem?]
  split_ifs with heq
  · obtain ⟨rfl, rfl⟩ := heq
    rw [hleaf, List.getElem?_append_right (by omega), show t.length + 1 - t.length = 1 by omega]
    rfl
  · by_cases hlt : index k j < t.length
    · rw [List.getElem?_append_left hlt]
    · have hne : index k j ≠ t.length + 1 := by
        rw [← hleaf]
        exact fun h => heq (InOrder.index_inj h)
      rw [List.getElem?_append_right (by omega), List.getElem?_eq_none (l := t) (by omega)]
      rcases Nat.eq_or_lt_of_le (Nat.not_lt.mp hlt) with hz | hz
      · rw [← hz, Nat.sub_self]
        rfl
      · obtain ⟨m, hm⟩ : ∃ m, index k j - t.length = m + 2 := ⟨index k j - t.length - 2, by omega⟩
        rw [hm, List.getElem?_cons_succ, List.getElem?_cons_succ, List.getElem?_replicate]
        split_ifs <;> rfl

/-- The leftmost blank leaf is filled, or a leaf of the doubled tree where there
is none; every parent above it lists it as unmerged. -/
theorem addLeafNode_spec {t t' : RatchetTree} {l : LeafNode} {n : ℤ} {d : ℕ}
    (hlen : t.length = size d) (hd : d ≤ 31) (h : addLeafNode t l = .ok (t', n)) :
    ∃ i d', n = coord 0 i ∧ t'.length = size d' ∧ d' ≤ 31 ∧ i < 2 ^ d' ∧
      (d' = d ∧ d ≤ 30 ∨ d' = d + 1 ∧ i = 2 ^ d) ∧
      slot t 0 i = none ∧ (∀ i' < i, slot t 0 i' ≠ none) ∧
      ∀ k j, slot t' k j = if k = 0 ∧ j = i then some (.leaf l)
        else if i / 2 ^ k = j then (slot t k j).map (Node.addUnmerged i) else slot t k j := by
  have hs := InOrder.size_add_one d
  unfold addLeafNode at h
  split at h
  case h_1 hblank =>
    unfold extendTree at h
    split_ifs at h with hmax
    obtain ⟨rfl, rfl⟩ := Prod.mk.inj (Except.ok.inj h)
    have hd30 : d ≤ 30 := by
      by_contra hgt
      obtain rfl : d = 31 := by omega
      omega
    have hp := Nat.two_pow_pos d
    refine ⟨2 ^ d, d + 1, ?_, ?_, by omega, by rw [pow_succ]; omega, .inr ⟨rfl, rfl⟩, ?_, ?_, ?_⟩
    · rw [coord, InOrder.index_zero, hlen]
      have he : size d + 1 = 2 * 2 ^ d := by rw [hs, pow_succ]; ring
      exact_mod_cast he
    · rw [InOrder.size_succ]
      simp only [List.length_append, List.length_cons, List.length_replicate]
      have := InOrder.size_pos d
      omega
    · apply slot_eq_none_of_le
      rw [hlen, InOrder.index_zero]
      rw [pow_succ] at hs
      omega
    · intro i' hi'
      apply findBlankLeafNodeIndex_none hblank
      rw [hlen]
      exact InOrder.leaf_lt_size.mpr hi'
    · intro k j
      rw [slot_extend hlen]
      split_ifs with h1 h2
      · rfl
      · -- the new leaf's ancestors all lie outside the old array
        have hnone : slot t k j = none := by
          apply slot_eq_none_of_le
          rw [hlen]
          by_contra hlt
          obtain ⟨hk, hj⟩ := InOrder.index_lt_size.mp (Nat.not_le.mp hlt)
          rw [← h2, Nat.pow_div hk (by omega)] at hj
          omega
        rw [hnone]
        rfl
      · rfl
  case h_2 blankLeaf hblank =>
    obtain ⟨i, rfl, hi, hnone, hbefore⟩ := findBlankLeafNodeIndex_some hblank
    rw [hlen, leafWidth_size, nodeToLeafIndex_coord] at h
    obtain ⟨i', hi', h⟩ := bind_eq_ok.mp h
    obtain rfl := Except.ok.inj hi'
    obtain ⟨dp, hdp, h⟩ := bind_eq_ok.mp h
    obtain ⟨hd30, hid, rfl⟩ := directPath_eq_ok hd hdp
    obtain ⟨copy, hcopy, h⟩ := bind_eq_ok.mp h
    obtain ⟨rfl, rfl⟩ := Prod.mk.inj (Except.ok.inj h)
    obtain rfl := foldlM_addUnmergedLeaf hcopy
    refine ⟨i, d, rfl, by simp [hlen], hd, hid, .inl ⟨rfl, hd30⟩, hnone, hbefore, ?_⟩
    intro k j
    rw [slot_setNode (by simpa using hi)]
    by_cases h0 : k = 0 ∧ j = i
    · rw [if_pos h0, if_pos h0]
    rw [if_neg h0, if_neg h0, slot_writeNodes fun n hn => by rw [hlen]; exact leafPath_lt hid hn,
      nodeAt_coord]
    simp only [mem_leafPath]
    by_cases hj : i / 2 ^ k = j
    · rw [if_pos hj]
      by_cases hk : k ≤ d
      · have hk0 : 0 < k := by
          rcases Nat.eq_zero_or_pos k with rfl | hk0
          · exact absurd ⟨rfl, by simpa using hj.symm⟩ h0
          · exact hk0
        rw [if_pos ⟨hk0, hk, hj⟩]
        cases slot t k j <;> rfl
      · have hout : slot t k j = none := by
          apply slot_eq_none_of_le
          rw [hlen]
          by_contra hlt
          exact hk (InOrder.index_lt_size.mp (Nat.not_le.mp hlt)).1
        rw [if_neg fun h => hk h.2.1, hout]
        rfl
    · rw [if_neg fun h => hj h.2.2, if_neg hj]

/-! ## Blanking a leaf's direct path -/

theorem blankPath_eq (t : RatchetTree) (ns : List ℤ) :
    blankPath t ns = writeNodes (fun n => (nodeAt t n).map fun _ => none) t ns := by
  unfold blankPath writeNodes
  congr 1
  funext copy n
  cases hn : nodeAt t n <;> simp only [hn] <;> rfl

theorem slot_blankPath {t : RatchetTree} {d i : ℕ} (hlen : t.length = size d) (hi : i < 2 ^ d)
    (k j : ℕ) : slot (blankPath t (leafPath d i)) k j =
      if 0 < k ∧ i / 2 ^ k = j then none else slot t k j := by
  rw [blankPath_eq, slot_writeNodes fun n hn => by rw [hlen]; exact leafPath_lt hi hn]
  simp only [mem_leafPath, nodeAt_coord]
  by_cases hk : k ≤ d
  · simp only [hk, true_and]
    split_ifs with h
    · cases slot t k j <;> rfl
    · rfl
  · have hout : slot t k j = none := by
      apply slot_eq_none_of_le
      rw [hlen]
      by_contra hlt
      exact hk (InOrder.index_lt_size.mp (Nat.not_le.mp hlt)).1
    simp [hk, hout]

/-- The leaf is replaced and its direct path is blanked. -/
theorem updateLeafNode_spec {t t' : RatchetTree} {l : LeafNode} {i d : ℕ}
    (hlen : t.length = size d) (hd : d ≤ 31) (h : updateLeafNode t l i = .ok t') :
    d ≤ 30 ∧ i < 2 ^ d ∧ t'.length = size d ∧
      ∀ k j, slot t' k j = if k = 0 ∧ j = i then some (.leaf l)
        else if i / 2 ^ k = j then none else slot t k j := by
  unfold updateLeafNode at h
  rw [hlen, leafWidth_size, leafToNodeIndex_eq] at h
  obtain ⟨dp, hdp, h⟩ := bind_eq_ok.mp h
  obtain ⟨hd30, hi, rfl⟩ := directPath_eq_ok hd hdp
  obtain rfl := Except.ok.inj h
  refine ⟨hd30, hi, by simp [blankPath_eq, hlen], fun k j => ?_⟩
  rw [slot_setNode (by simpa [blankPath_eq, hlen] using InOrder.leaf_lt_size.mpr hi),
    slot_blankPath hlen hi]
  by_cases h0 : k = 0 ∧ j = i
  · rw [if_pos h0, if_pos h0]
  · rw [if_neg h0, if_neg h0]
    by_cases hk : 0 < k
    · simp [hk]
    · obtain rfl : k = 0 := by omega
      have hne : ¬ i / 2 ^ 0 = j := fun h => h0 ⟨rfl, by simpa using h.symm⟩
      rw [if_neg fun h => hk h.1, if_neg hne]

/-! ## Cutting a tree at its last node -/

theorem shl_one {d : ℕ} (hd : d ≤ 30) : Signed32.shl 1 (d : ℤ) = (2 ^ d : ℕ) := by
  have hp := Nat.pow_le_pow_right (n := 2) (by omega) hd
  have := Signed32.shl_natCast (a := 1) (c := d) (by omega) (by omega)
  rw [one_mul] at this
  exact_mod_cast this

/-- The size found is the smallest of a full tree that holds `n` nodes; the
largest one the shift can find has depth 29. -/
theorem nextFullBinaryTreeSizeLoop_spec {n fuel d : ℕ} {s : ℤ}
    (hf : d + fuel = 33) (hbelow : ∀ e < d, e ≤ 29 → size e < n)
    (h : nextFullBinaryTreeSizeLoop n fuel d = .ok s) :
    ∃ e ≤ 29, s = (size e : ℕ) ∧ n ≤ size e ∧ ∀ e' < e, size e' < n := by
  have hsz : ∀ e : ℕ, e ≤ 29 → Signed32.shl 1 ((e : ℤ) + 1) - 1 = (size e : ℕ) := by
    intro e he
    have h1 := shl_one (d := e + 1) (by omega)
    have h2 := InOrder.size_add_one e
    rw [← h2] at h1
    push_cast at h1
    omega
  induction fuel generalizing d with
  | zero => cases h
  | succ fuel ih =>
    rw [nextFullBinaryTreeSizeLoop] at h
    have hstep : Signed32.shl 1 ((d : ℤ) + 1) - 1 < n →
        ∃ e ≤ 29, s = (size e : ℕ) ∧ n ≤ size e ∧ ∀ e' < e, size e' < n := by
      intro hlt
      rw [if_pos hlt] at h
      have h' : nextFullBinaryTreeSizeLoop n fuel ((d + 1 : ℕ) : ℤ) = .ok s := by exact_mod_cast h
      refine ih (by omega) (fun e he he29 => ?_) h'
      rcases Nat.lt_succ_iff_lt_or_eq.mp he with he | rfl
      · exact hbelow e he he29
      · rw [hsz e he29] at hlt
        exact_mod_cast hlt
    by_cases hd : d ≤ 29
    · by_cases hlt : Signed32.shl 1 ((d : ℤ) + 1) - 1 < n
      · exact hstep hlt
      · rw [if_neg hlt] at h
        have hs := (Except.ok.inj h).symm
        rw [hsz d hd] at hs hlt
        exact ⟨d, hd, hs, by exact_mod_cast Int.not_lt.mp hlt, fun e' he' => hbelow e' he' (by omega)⟩
    · -- past depth 29 the shift is negative, then starts over below `n`
      apply hstep
      have h1 : size 1 < n := hbelow 1 (by omega) (by omega)
      have h1' : size 1 = 3 := by decide
      obtain rfl | rfl | rfl : d = 30 ∨ d = 31 ∨ d = 32 := by omega
      · have : Signed32.shl 1 ((30 : ℕ) + 1) - 1 = -2147483649 := by decide +kernel
        omega
      · have : Signed32.shl 1 ((31 : ℕ) + 1) - 1 = 0 := by decide +kernel
        omega
      · have : Signed32.shl 1 ((32 : ℕ) + 1) - 1 = 1 := by decide +kernel
        omega

theorem slot_append_replicate_none (t : RatchetTree) (m k j : ℕ) :
    slot (t ++ List.replicate m none) k j = slot t k j := by
  rw [slot_eq_getElem?, slot_eq_getElem?]
  by_cases hlt : index k j < t.length
  · rw [List.getElem?_append_left hlt]
  · rw [List.getElem?_append_right (by omega), List.getElem?_eq_none (l := t) (by omega),
      List.getElem?_replicate]
    split_ifs <;> rfl

theorem slot_stripBlankNodes (t : RatchetTree) (k j : ℕ) :
    slot (stripBlankNodes t) k j = slot t k j := by
  have happ : stripBlankNodes t ++ t.rtakeWhile Option.isNone = t :=
    List.rdropWhile_append_rtakeWhile ..
  have hnone : ∀ v ∈ t.rtakeWhile Option.isNone, v = none := fun v hv =>
    Option.isNone_iff_eq_none.mp (List.mem_rtakeWhile_imp hv)
  rw [List.eq_replicate_of_mem hnone] at happ
  conv_rhs => rw [← happ]
  rw [slot_append_replicate_none]

/-- Cutting the trailing blanks and padding again changes no place. The tree that
is left ends in its last non-blank node's half. -/
theorem condenseRatchetTreeAfterRemove_spec {t t' : RatchetTree}
    (h : condenseRatchetTreeAfterRemove t = .ok t') :
    ∃ d ≤ 29, t'.length = size d ∧ (∀ k j, slot t' k j = slot t k j) ∧
      (∃ k j, slot t k j ≠ none ∧ ∀ d' < d, size d' ≤ index k j) := by
  simp only [condenseRatchetTreeAfterRemove] at h
  split_ifs at h with hzero
  simp only [extendRatchetTree] at h
  split_ifs at h with hlast
  · cases h
  · obtain ⟨s, hs, h⟩ := bind_eq_ok.mp h
    obtain ⟨d, hd, rfl, hle, hmin⟩ :=
      nextFullBinaryTreeSizeLoop_spec (d := 0) rfl (fun e he => absurd he (by omega)) hs
    obtain rfl := Except.ok.inj h
    obtain ⟨k, j, hkj⟩ := InOrder.exists_index ((stripBlankNodes t).length - 1)
    have hcoord : (((stripBlankNodes t).length : ℕ) : ℤ) - 1 = coord k j := by
      rw [coord, ← hkj]
      omega
    refine ⟨d, hd, ?_, fun k j => ?_, k, j, ?_, fun d' hd' => ?_⟩
    · rw [List.length_append, List.length_replicate]
      omega
    · rw [slot_append_replicate_none, slot_stripBlankNodes]
    · rw [hcoord, nodeAt_coord, slot_stripBlankNodes] at hlast
      exact hlast
    · have := hmin d' hd'
      omega

theorem nextFullBinaryTreeSizeLoop_returns {n fuel d : ℕ} (hn : n ≤ size 29) (hd : d ≤ 29)
    (hf : 30 ≤ d + fuel) : ∃ s, nextFullBinaryTreeSizeLoop n fuel d = .ok s := by
  induction fuel generalizing d with
  | zero => omega
  | succ fuel ih =>
    rw [nextFullBinaryTreeSizeLoop]
    split_ifs with hlt
    · have h1 := shl_one (d := d + 1) (by omega)
      have h2 := InOrder.size_add_one d
      rw [← h2] at h1
      push_cast at h1
      have hne : d ≠ 29 := by
        rintro rfl
        omega
      have := ih (d := d + 1) (by omega) (by omega)
      exact_mod_cast this
    · exact ⟨_, rfl⟩

/-- Stripping leaves no more than reaches the last node. -/
theorem length_stripBlankNodes_le {t : RatchetTree} {n : ℕ}
    (h : ∀ k j, n ≤ index k j → slot t k j = none) : (stripBlankNodes t).length ≤ n := by
  by_contra hlt
  have hne : stripBlankNodes t ≠ [] := List.length_pos_iff.mp (by omega)
  have hlast : ¬ ((stripBlankNodes t).getLast hne).isNone :=
    List.rdropWhile_last_not Option.isNone t hne
  obtain ⟨k, j, hkj⟩ := InOrder.exists_index ((stripBlankNodes t).length - 1)
  have hnone := h k j (by omega)
  rw [← slot_stripBlankNodes, slot_eq_getElem?, ← hkj, List.getElem?_eq_getElem (by omega),
    Option.join_some, ← List.getLast_eq_getElem hne] at hnone
  exact hlast (Option.isNone_iff_eq_none.mpr hnone)

theorem nodeAt_stripBlankNodes_last {t : RatchetTree} (hne : stripBlankNodes t ≠ []) :
    nodeAt (stripBlankNodes t) ((stripBlankNodes t).length - 1) ≠ none := by
  have hpos := List.length_pos_iff.mpr hne
  have hnot : ¬ ((stripBlankNodes t).getLast hne).isNone :=
    List.rdropWhile_last_not Option.isNone t hne
  have hidx : (((stripBlankNodes t).length : ℤ) - 1).toNat = (stripBlankNodes t).length - 1 := by
    omega
  rw [nodeAt, if_neg (by omega), hidx, List.getElem?_eq_getElem (by omega), Option.join_some,
    ← List.getLast_eq_getElem hne]
  simpa using hnot

/-- A tree that is not blank and has no node past 2 ^ 30 - 1 can be condensed. -/
theorem condenseRatchetTreeAfterRemove_returns {t : RatchetTree} {k j : ℕ}
    (hlen : ∀ k j, size 29 ≤ index k j → slot t k j = none) (hkj : slot t k j ≠ none) :
    ∃ t', condenseRatchetTreeAfterRemove t = .ok t' := by
  have hne : stripBlankNodes t ≠ [] := by
    intro hnil
    rw [← slot_stripBlankNodes, hnil] at hkj
    exact hkj (slot_eq_none_of_le (Nat.zero_le _))
  have hlast := nodeAt_stripBlankNodes_last hne
  obtain ⟨s, hs⟩ : ∃ s, nextFullBinaryTreeSize (stripBlankNodes t).length = .ok s :=
    nextFullBinaryTreeSizeLoop_returns (d := 0) (length_stripBlankNodes_le hlen) (by omega)
      (by omega)
  refine ⟨stripBlankNodes t ++
    List.replicate (s - (stripBlankNodes t).length).toNat none, ?_⟩
  rw [condenseRatchetTreeAfterRemove, if_neg (by rwa [List.length_eq_zero_iff]), extendRatchetTree]
  simp only [if_neg hlast, hs, ok_bind]
  rfl

/-- The leaf and its direct path are blanked, and the tree is cut. -/
theorem removeLeafNode_spec {t t' : RatchetTree} {i d : ℕ}
    (hlen : t.length = size d) (hd : d ≤ 31) (h : removeLeafNode t i = .ok t') :
    d ≤ 30 ∧ i < 2 ^ d ∧ ∃ d' ≤ 29, t'.length = size d' ∧
      (∀ k j, slot t' k j = if i / 2 ^ k = j then none else slot t k j) ∧
      (∃ k j, slot t' k j ≠ none ∧ ∀ e < d', size e ≤ index k j) := by
  unfold removeLeafNode at h
  rw [hlen, leafWidth_size, leafToNodeIndex_eq] at h
  obtain ⟨dp, hdp, h⟩ := bind_eq_ok.mp h
  obtain ⟨hd30, hi, rfl⟩ := directPath_eq_ok hd hdp
  obtain ⟨d', hd', hlen', hslot, k, j, hkj, hmin⟩ := condenseRatchetTreeAfterRemove_spec h
  refine ⟨hd30, hi, d', hd', hlen', fun k j => ?_, k, j, by rw [hslot]; exact hkj, hmin⟩
  rw [hslot, slot_setNode (by simpa [blankPath_eq, hlen] using InOrder.leaf_lt_size.mpr hi),
    slot_blankPath hlen hi]
  by_cases h0 : k = 0 ∧ j = i
  · obtain ⟨rfl, rfl⟩ := h0
    simp
  · rw [if_neg h0]
    by_cases hk : 0 < k
    · simp [hk]
    · obtain rfl : k = 0 := by omega
      have hne : ¬ i / 2 ^ 0 = j := fun h => h0 ⟨rfl, by simpa using h.symm⟩
      rw [if_neg fun h => hk h.1, if_neg hne]

end WebcryptoMls
