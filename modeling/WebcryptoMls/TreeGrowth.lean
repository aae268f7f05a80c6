import WebcryptoMls.ReachableTrees

/-!
# Growing a tree

An Add to a tree below the widest size always returns, so whatever holds of a
tree and is kept by an Add holds of a tree with any number of leaves up to
`2 ^ 30 + 1`. This is how the sizes at which the bit operators give out are
reached.
-/
namespace WebcryptoMls
open InOrder (index size)

theorem foldlM_addUnmergedLeaf_returns {t : RatchetTree} {i : ℕ} {ns : List ℤ}
    (h : ∀ n ∈ ns, ∀ l, nodeAt t n ≠ some (.leaf l)) (c : RatchetTree) :
    ∃ c', ns.foldlM (addUnmergedLeaf t i) c = .ok c' := by
  induction ns generalizing c with
  | nil => exact ⟨c, rfl⟩
  | cons n ns ih =>
    have hn := h n (List.mem_cons_self ..)
    obtain ⟨c₁, hc₁⟩ : ∃ c₁, addUnmergedLeaf t i c n = .ok c₁ := by
      unfold addUnmergedLeaf
      split
      · exact ⟨_, rfl⟩
      · exact ⟨_, rfl⟩
      · rename_i l hl
        exact absurd hl (hn l)
    obtain ⟨c', hc'⟩ := ih (fun m hm => h m (List.mem_cons_of_mem _ hm)) c₁
    exact ⟨c', by rw [List.foldlM_cons, hc₁, ok_bind, hc']⟩

theorem addLeafNode_returns {t : RatchetTree} {d : ℕ} (ht : Typed t) (hlen : t.length = size d)
    (hd : d ≤ 30) (l : LeafNode) : ∃ t' n, addLeafNode t l = .ok (t', n) := by
  unfold addLeafNode
  split
  · have hpos := InOrder.size_pos d
    have hs := size_lt_of_le hd
    exact ⟨_, _, by rw [extendTree, if_neg (by omega)]; rfl⟩
  · rename_i blankLeaf hblank
    obtain ⟨i, rfl, hi, -⟩ := findBlankLeafNodeIndex_some hblank
    rw [hlen] at hi ⊢
    have hid := InOrder.leaf_lt_size.mp hi
    have hleaf : ∀ n ∈ leafPath d i, ∀ l, nodeAt t n ≠ some (.leaf l) := by
      intro n hn l hl
      obtain ⟨m, -, rfl⟩ := List.mem_map.mp hn
      obtain ⟨p, hp⟩ := ht.parent m _ _ hl
      cases hp
    obtain ⟨c, hc⟩ := foldlM_addUnmergedLeaf_returns (i := i) hleaf t
    refine ⟨setNode c (coord 0 i) (some (.leaf l)), coord 0 i, ?_⟩
    have hdp : directPath (coord 0 i) (2 ^ d) = .ok (leafPath d i) := directPath_leaf hd hid
    rw [nodeToLeafIndex_coord, leafWidth_size, hdp, ok_bind, ok_bind, hc, ok_bind]
    rfl

/-- The first `n` leaves are there and no others, in the smallest tree for them. -/
structure FilledUpTo (n d : ℕ) (t : RatchetTree) : Prop where
  typed : Typed t
  length : t.length = size d
  leaf : ∀ i, slot t 0 i ≠ none ↔ i < n
  smallest : 2 ^ d < 2 * n

theorem filledUpTo_singleton (l : LeafNode) : FilledUpTo 1 0 [some (.leaf l)] where
  typed := (treeInvariant_singleton l).typed
  length := rfl
  leaf i := by
    rw [slot_singleton]
    split_ifs <;> simp <;> omega
  smallest := by omega

theorem FilledUpTo.depth {n d : ℕ} {t : RatchetTree} (h : FilledUpTo n d t) (hn : n ≤ 2 ^ 30) :
    d ≤ 30 := by
  have := h.smallest
  have := (Nat.pow_lt_pow_iff_right (a := 2) (by omega)).mp (show 2 ^ d < 2 ^ 31 by omega)
  omega

theorem FilledUpTo.add {n d : ℕ} {t t' : RatchetTree} {l : LeafNode} {m : ℤ}
    (h : FilledUpTo n d t) (hn : n ≤ 2 ^ 30) (hadd : addLeafNode t l = .ok (t', m)) :
    ∃ d', FilledUpTo (n + 1) d' t' := by
  have hd := h.depth hn
  obtain ⟨i, d', -, hlen, -, -, hsize, hblank, hbefore, hslot⟩ :=
    addLeafNode_spec h.length (by omega) hadd
  have hin : i = n := by
    have h1 : ¬ i < n := fun hlt => (h.leaf i).mpr hlt hblank
    have h2 : ¬ n < i := fun hlt => absurd ((h.leaf n).mp (hbefore n hlt)) (by omega)
    omega
  subst hin
  have hadded : Added t t' i l := ⟨hblank, hbefore, hslot⟩
  refine ⟨d', hadded.typed h.typed, hlen, fun j => ?_, ?_⟩
  · rw [hadded.leaf]
    split_ifs with hj
    · simp [hj]
    · rw [h.leaf]
      omega
  · have := h.smallest
    rcases hsize with ⟨rfl, -⟩ | ⟨rfl, rfl⟩
    · omega
    · rw [pow_succ]
      omega

/-- What Adds keep holds of some tree with any number of leaves an Add can reach. -/
theorem exists_filledUpTo {P : RatchetTree → Prop} {l : LeafNode} {m n : ℕ}
    (hP : ∀ t t' x, P t → addLeafNode t l = .ok (t', x) → P t')
    (h₀ : ∃ t d, P t ∧ FilledUpTo m d t) (hm : m ≤ n) (hn : n ≤ 2 ^ 30 + 1) :
    ∃ t d, P t ∧ FilledUpTo n d t := by
  induction n, hm using Nat.le_induction with
  | base => exact h₀
  | succ n _ ih =>
    obtain ⟨t, d, hp, hf⟩ := ih (by omega)
    have hd := hf.depth (by omega)
    obtain ⟨t', x, hadd⟩ := addLeafNode_returns hf.typed hf.length hd l
    obtain ⟨d', hf'⟩ := hf.add (by omega) hadd
    exact ⟨t', d', hP t t' x hp hadd, hf'⟩

/-- An Add takes no leaf off a list of unmerged leaves. -/
theorem Added.keeps_unmerged {t t' : RatchetTree} {i : ℕ} {l : LeafNode} (h : Added t t' i l)
    {k j : ℕ} {p : ParentNode} (hp : WebcryptoMls.slot t k j = some (.parent p))
    (hne : ¬ (k = 0 ∧ j = i)) : ∃ p', WebcryptoMls.slot t' k j = some (.parent p') ∧
      p.unmergedLeaves ⊆ p'.unmergedLeaves := by
  rw [h.slot, if_neg hne, hp]
  split_ifs
  · exact ⟨_, rfl, List.subset_append_left ..⟩
  · exact ⟨p, rfl, List.Subset.refl _⟩

/-- A path keeps every leaf place as it is filled. -/
theorem FilledUpTo.pathWritten {n d i : ℕ} {t t' : RatchetTree} {h : Hash} {c : LeafNodeCommit}
    (hf : FilledUpTo n d t) (ht : TreeInvariant t) (hi : slot t 0 i ≠ none)
    (hw : PathWritten h t t' d i c) : FilledUpTo n d t' where
  typed := (ht.pathWritten hf.length hw).typed
  length := hw.length
  leaf j := by
    rw [hw.leaf_slot, ← hf.leaf j]
    split_ifs with hj
    · simp [hj, hi]
    · rfl
  smallest := hf.smallest

/-- A leaf below the root is added after the first leaf committed, so the root
lists it; then leaves are added up to any number an Add can reach. -/
theorem exists_wide_unmerged {P : RatchetTree → Prop} {n : ℕ} (hinit : P [some (.leaf default)])
    (hadd : ∀ t t' m, P t → addLeafNode t default = .ok (t', m) → P t')
    (hpath : ∀ t created, P t → plainPath t = .ok created → P created.tree)
    (h4 : 4 ≤ n) (hn : n ≤ 2 ^ 30 + 1) :
    ∃ t d, P t ∧ FilledUpTo n d t ∧ ∃ p, slot t 2 0 = some (.parent p) ∧ 3 ∈ p.unmergedLeaves := by
  have h₂ : addLeafNode [some (.leaf default)] default =
      .ok ([some (.leaf default), none, some (.leaf default)], 2) := rfl
  have h₃ : addLeafNode [some (.leaf default), none, some (.leaf default)] default =
      .ok (threeLeaves, 4) := rfl
  have hP₃ : P threeLeaves := hadd _ _ _ (hadd _ _ _ hinit h₂) h₃
  have hr₃ := threeLeaves_reachable
  have hf₃ : FilledUpTo 3 2 threeLeaves := by
    obtain ⟨d₂, hf₂⟩ := (filledUpTo_singleton default).add (by omega) h₂
    obtain ⟨d₃, hf₃⟩ := hf₂.add (by omega) h₃
    obtain rfl : d₃ = 2 := InOrder.size_inj (hf₃.length.symm.trans rfl)
    exact hf₃
  obtain ⟨created, hc⟩ : ∃ created, plainPath threeLeaves = .ok created :=
    exists_ok_of_toBool (by decide +kernel)
  have hinv := hr₃.invariant.1
  obtain ⟨hw, -⟩ := createUpdatePath_spec (d := 2) rfl (by omega) hc
  have hfc := hf₃.pathWritten hinv (by simp [hf₃.leaf]) hw
  have hmem : 1 ∈ filteredLevels threeLeaves 2 0 :=
    mem_filteredLevels.mpr ⟨by omega, hinv.isCovered.resolution_ne_nil.mpr ⟨2, rfl, by simp [hf₃.leaf]⟩⟩
  obtain ⟨p, hp, -⟩ : ∃ p, slot created.tree 2 0 = some (.parent p) ∧ _ := hw.node 1 hmem
  -- the fourth leaf is unmerged at the root
  obtain ⟨t₄, m, h₄⟩ := addLeafNode_returns hfc.typed hfc.length (by omega) default
  obtain ⟨d₄, hf₄⟩ := hfc.add (by omega) h₄
  obtain ⟨i, -, -, -, -, -, -, hblank, hbefore, hslot⟩ := addLeafNode_spec hfc.length (by omega) h₄
  have hi : i = 3 := by
    have h1 : ¬ i < 3 := fun hlt => (hfc.leaf i).mpr hlt hblank
    have h2 : ¬ 3 < i := fun hlt => absurd ((hfc.leaf 3).mp (hbefore 3 hlt)) (by omega)
    omega
  subst hi
  have hp₄ : slot t₄ 2 0 = some (.parent { p with unmergedLeaves := p.unmergedLeaves ++ [3] }) := by
    rw [hslot, if_neg (by omega), if_pos (by decide), hp]
    rfl
  -- which no Add undoes
  have hstep : ∀ t t' x, (P t ∧ (∃ d ≤ 31, t.length = size d) ∧
      ∃ p, slot t 2 0 = some (.parent p) ∧ 3 ∈ p.unmergedLeaves) →
      addLeafNode t default = .ok (t', x) → P t' ∧ (∃ d ≤ 31, t'.length = size d) ∧
        ∃ p, slot t' 2 0 = some (.parent p) ∧ 3 ∈ p.unmergedLeaves := by
    rintro t t' x ⟨hP, ⟨d, hd, hlen⟩, p, hp, hu⟩ h
    obtain ⟨i, d', -, hlen', hd', -, -, hblank, hbefore, hslot⟩ := addLeafNode_spec hlen hd h
    obtain ⟨p', hp', hsub⟩ := Added.keeps_unmerged ⟨hblank, hbefore, hslot⟩ hp (by omega)
    exact ⟨hadd _ _ _ hP h, ⟨d', hd', hlen'⟩, p', hp', hsub hu⟩
  have hd₄ : d₄ ≤ 31 := (hf₄.depth (by omega)).trans (by omega)
  obtain ⟨t, d, ⟨hP, -, hroot⟩, hf⟩ := exists_filledUpTo hstep ⟨t₄, d₄,
    ⟨hadd _ _ _ (hpath _ _ hP₃ hc) h₄, ⟨d₄, hd₄, hf₄.length⟩, _, hp₄, by simp⟩, hf₄⟩ h4 hn
  exact ⟨t, d, hP, hf, hroot⟩

end WebcryptoMls
