import WebcryptoMls.ProposalProcessing
import WebcryptoMls.UnmergedLeaves

/-!
# Updates and Removes in any order

Each operation blanks the path of its leaf at the width the tree then has, and a
Remove may narrow the tree. What a run leaves at a place depends only on the
leaves changed below it, and the width on where the last leaf stands, so runs of
the same changes that return end in the same tree. A tree of 2 ^ 31 - 1 nodes can
only be narrowed: `nextFullBinaryTreeSize` does not return for a wider rest, and
whether it is asked for one is a matter of the order.
-/
namespace WebcryptoMls
open InOrder (index size)

/-- An Update or a Remove of a leaf. -/
inductive LeafChange where
  | update (leafNode : LeafNode) (leafIndex : ℕ)
  | remove (leafIndex : ℕ)
  deriving Repr, DecidableEq

/-- The leaf a change is about. -/
def LeafChange.target : LeafChange → ℕ
  | .update _ leafIndex => leafIndex
  | .remove leafIndex => leafIndex

/-- What a change puts in its leaf's place. -/
def LeafChange.leaf : LeafChange → Option LeafNode
  | .update leafNode _ => some leafNode
  | .remove _ => none

def LeafChange.apply (tree : RatchetTree) : LeafChange → Except MlsError RatchetTree
  | .update leafNode leafIndex => updateLeafNode tree leafNode leafIndex
  | .remove leafIndex => removeLeafNode tree leafIndex

/-- The changes one after the other. -/
def applyChanges (tree : RatchetTree) (changes : List LeafChange) : Except MlsError RatchetTree :=
  changes.foldlM LeafChange.apply tree

theorem applyChanges_cons (t : RatchetTree) (c : LeafChange) (l : List LeafChange) :
    applyChanges t (c :: l) = (c.apply t).bind fun t' => applyChanges t' l := by
  simp only [applyChanges, List.foldlM_cons, bind]

theorem applyChanges_append (t : RatchetTree) (l l' : List LeafChange) :
    applyChanges t (l ++ l') = (applyChanges t l).bind fun t' => applyChanges t' l' := by
  simp only [applyChanges, List.foldlM_append, bind]

/-! ## What a run leaves -/

section
variable {t t' : RatchetTree} {d : ℕ} {l l' : List LeafChange}

theorem LeafChange.apply_blanked {c : LeafChange} (hc : Covered t) (hg : Grown d t)
    (h : c.apply t = .ok t') :
    Blanked t t' c.target c.leaf ∧ ∃ d' ≤ d, Grown d' t' := by
  cases c with
  | update leafNode leafIndex =>
    obtain ⟨hb, hg'⟩ := updateLeafNode_blanked hg h
    exact ⟨hb, d, le_rfl, hg'⟩
  | remove leafIndex =>
    obtain ⟨hb, d', -, hg'⟩ := removeLeafNode_blanked hc hg h
    refine ⟨hb, d', ?_, hg'⟩
    rcases hg'.right with rfl | ⟨u, hu, hne⟩
    · exact Nat.zero_le d
    · have hne' : slot t 0 u ≠ none := by
        rwa [← hb.leaf_ne]
        rintro rfl
        exact hne hb.leaf
      obtain ⟨n, hn⟩ := Option.ne_none_iff_exists'.mp hne'
      have hlt := InOrder.leaf_lt_size.mp (hg.length ▸ index_lt_of_slot hn)
      have := (Nat.pow_lt_pow_iff_right (a := 2) (by omega)).mp (hu.trans_lt hlt)
      omega

/-- What the changes leave, whatever their order. -/
structure Changed (t t' : RatchetTree) (l : List LeafChange) : Prop where
  leaf : ∀ c ∈ l, slot t' 0 c.target = c.leaf.map Node.leaf
  path : ∀ c ∈ l, ∀ k, slot t' (k + 1) (c.target / 2 ^ (k + 1)) = none
  off : ∀ k j, (∀ c ∈ l, c.target / 2 ^ k ≠ j) → slot t' k j = slot t k j

theorem Changed.nil : Changed t t [] := ⟨by simp, by simp, fun _ _ _ => rfl⟩

theorem Changed.cons {c : LeafChange} {t₁ : RatchetTree} (hb : Blanked t t₁ c.target c.leaf)
    (h : Changed t₁ t' l) (hnot : c.target ∉ l.map LeafChange.target) : Changed t t' (c :: l) where
  leaf c' hc' := by
    rcases List.mem_cons.mp hc' with rfl | hc'
    · rw [h.off, hb.leaf]
      exact fun c₁ hc₁ heq => hnot (List.mem_map.mpr ⟨c₁, hc₁, by simpa using heq⟩)
    · exact h.leaf c' hc'
  path c' hc' k := by
    rcases List.mem_cons.mp hc' with rfl | hc'
    · by_cases habove : ∃ c₁ ∈ l, c₁.target / 2 ^ (k + 1) = c'.target / 2 ^ (k + 1)
      · obtain ⟨c₁, hc₁, heq⟩ := habove
        rw [← heq]
        exact h.path c₁ hc₁ k
      · push Not at habove
        rw [h.off _ _ habove, hb.path]
    · exact h.path c' hc' k
  off k j hj := by
    rw [h.off k j fun c₁ hc₁ => hj c₁ (List.mem_cons_of_mem _ hc₁),
      hb.off k j (hj c (List.mem_cons_self ..))]

theorem Changed.perm (h : Changed t t' l) (hp : l'.Perm l) : Changed t t' l' where
  leaf c hc := h.leaf c (hp.mem_iff.mp hc)
  path c hc := h.path c (hp.mem_iff.mp hc)
  off k j hj := h.off k j fun c hc => hj c (hp.mem_iff.mpr hc)

/-- The changes determine every place. -/
theorem Changed.slot_eq {t₁ t₂ : RatchetTree} (h₁ : Changed t t₁ l) (h₂ : Changed t t₂ l)
    (k j : ℕ) : slot t₁ k j = slot t₂ k j := by
  by_cases habove : ∃ c ∈ l, c.target / 2 ^ k = j
  · obtain ⟨c, hc, rfl⟩ := habove
    cases k with
    | zero => simpa using (h₁.leaf c hc).trans (h₂.leaf c hc).symm
    | succ k => rw [h₁.path c hc, h₂.path c hc]
  · push Not at habove
    rw [h₁.off k j habove, h₂.off k j habove]

/-- A grown tree has the width its leaves ask for. -/
theorem Grown.depth_le {d' : ℕ} (hg : Grown d t) (hg' : Grown d' t')
    (h : ∀ k j, slot t k j = slot t' k j) : d ≤ d' := by
  rcases hg.right with rfl | ⟨u, hu, hne⟩
  · exact Nat.zero_le d'
  · obtain ⟨n, hn⟩ := Option.ne_none_iff_exists'.mp hne
    rw [h] at hn
    have hlt := InOrder.leaf_lt_size.mp (hg'.length ▸ index_lt_of_slot hn)
    have := (Nat.pow_lt_pow_iff_right (a := 2) (by omega)).mp (hu.trans_lt hlt)
    omega

theorem Grown.ext {d' : ℕ} (hg : Grown d t) (hg' : Grown d' t')
    (h : ∀ k j, slot t k j = slot t' k j) : t = t' := by
  have h1 := hg.depth_le hg' h
  have h2 := hg'.depth_le hg fun k j => (h k j).symm
  obtain rfl : d = d' := by omega
  exact ext_slot (hg.length.trans hg'.length.symm) fun k j _ => h k j

/-- A run of changes of different leaves leaves what the changes ask for. -/
theorem applyChanges_changed (hc : Covered t) (hg : Grown d t)
    (hnodup : (l.map LeafChange.target).Nodup) (h : applyChanges t l = .ok t') :
    Changed t t' l ∧ ∃ d', Grown d' t' := by
  induction l generalizing t d with
  | nil =>
    obtain rfl := Except.ok.inj h
    exact ⟨.nil, d, hg⟩
  | cons c l ih =>
    rw [applyChanges_cons] at h
    obtain ⟨t₁, h₁, h⟩ := bind_eq_ok.mp h
    obtain ⟨hb, d₁, -, hg₁⟩ := LeafChange.apply_blanked hc hg h₁
    rw [List.map_cons, List.nodup_cons] at hnodup
    obtain ⟨hch, hg'⟩ := ih (hc.blanked hb) hg₁ hnodup.2 h
    exact ⟨hch.cons hb hnodup.1, hg'⟩

/-- Two orders that both return end in one tree. -/
theorem applyChanges_perm {t₁ t₂ : RatchetTree} (hc : Covered t) (hg : Grown d t)
    (hnodup : (l.map LeafChange.target).Nodup) (hp : l'.Perm l) (h₁ : applyChanges t l = .ok t₁)
    (h₂ : applyChanges t l' = .ok t₂) : t₁ = t₂ := by
  obtain ⟨hch₁, d₁, hg₁⟩ := applyChanges_changed hc hg hnodup h₁
  obtain ⟨hch₂, d₂, hg₂⟩ :=
    applyChanges_changed hc hg ((hp.map _).nodup_iff.mpr hnodup) h₂
  exact hg₁.ext hg₂ (hch₁.slot_eq (hch₂.perm hp.symm))

/-! ## When a run returns -/

theorem updateLeafNode_returns {i : ℕ} (hlen : t.length = size d) (hd : d ≤ 30) (hi : i < 2 ^ d)
    (leafNode : LeafNode) : ∃ t', updateLeafNode t leafNode i = .ok t' := by
  have hdp : directPath (coord 0 i) (2 ^ d) = .ok (leafPath d i) := directPath_leaf hd hi
  rw [updateLeafNode, hlen, leafWidth_size, leafToNodeIndex_eq, hdp, ok_bind]
  exact ⟨_, rfl⟩

/-- A Remove returns where the rest of the tree fits 2 ^ 30 - 1 nodes. -/
theorem removeLeafNode_returns {i u : ℕ} (hc : Covered t) (hlen : t.length = size d) (hd : d ≤ 30)
    (hi : i < 2 ^ d) (hu : slot t 0 u ≠ none) (hui : u ≠ i)
    (hright : ∀ v, 2 ^ 29 ≤ v → slot t 0 v ≠ none → v = i) :
    ∃ t', removeLeafNode t i = .ok t' := by
  have hdp : directPath (coord 0 i) (2 ^ d) = .ok (leafPath d i) := directPath_leaf hd hi
  rw [removeLeafNode, hlen, leafWidth_size, leafToNodeIndex_eq, hdp, ok_bind]
  set copy := setNode (blankPath t (leafPath d i)) (coord 0 i) none with hcopy
  have hslot : ∀ k j, slot copy k j = if i / 2 ^ k = j then none else slot t k j := by
    intro k j
    rw [hcopy, slot_setNode (by simpa [blankPath_eq, hlen] using InOrder.leaf_lt_size.mpr hi),
      slot_blankPath hlen hi]
    cases k <;> simp [eq_comm]
  have hb : Blanked t copy i none :=
    ⟨by simp [hslot], fun k => by simp [hslot], fun k j hj => by rw [hslot, if_neg hj]⟩
  have hleaf : slot copy 0 u ≠ none := by rwa [hb.leaf_ne hui]
  refine condenseRatchetTreeAfterRemove_returns (fun k j hkj => ?_) hleaf
  by_contra hne
  obtain ⟨n, hn⟩ := Option.ne_none_iff_exists'.mp hne
  obtain ⟨v, hv, hvne⟩ := (hc.blanked hb).right_leaf hn hkj
  have hvi : v ≠ i := by
    rintro rfl
    exact hvne hb.leaf
  rw [hb.leaf_ne hvi] at hvne
  exact hvi (hright v hv hvne)

/-- A Remove that returns leaves no leaf in the right half of the widest tree. -/
theorem removeLeafNode_narrows {i v : ℕ} (hc : Covered t) (hg : Grown d t)
    (h : removeLeafNode t i = .ok t') (hv : 2 ^ 29 ≤ v) (hne : slot t 0 v ≠ none) : v = i := by
  obtain ⟨hb, d', hd', hg'⟩ := removeLeafNode_blanked hc hg h
  by_contra hvi
  rw [← hb.leaf_ne hvi] at hne
  obtain ⟨n, hn⟩ := Option.ne_none_iff_exists'.mp hne
  have hlt := InOrder.leaf_lt_size.mp (hg'.length ▸ index_lt_of_slot hn)
  have := Nat.pow_le_pow_right (n := 2) (by omega) hd'
  omega

/-- The changes can be made in this order and every other. -/
theorem applyChanges_returns (hc : Covered t) (hg : Grown d t) (hd : d ≤ 30)
    (hnodup : (l.map LeafChange.target).Nodup) (hleaves : ∀ c ∈ l, slot t 0 c.target ≠ none)
    (hstays : ∃ u, slot t 0 u ≠ none ∧ .remove u ∉ l)
    (hright : ∀ i, .remove i ∈ l → ∀ v, 2 ^ 29 ≤ v → slot t 0 v ≠ none → v = i) :
    ∃ t', applyChanges t l = .ok t' := by
  induction l generalizing t d with
  | nil => exact ⟨t, rfl⟩
  | cons c l ih =>
    obtain ⟨u, hu, hnot⟩ := hstays
    have htarget : c.target < 2 ^ d := by
      obtain ⟨n, hn⟩ := Option.ne_none_iff_exists'.mp (hleaves c (List.mem_cons_self ..))
      exact InOrder.leaf_lt_size.mp (hg.length ▸ index_lt_of_slot hn)
    obtain ⟨t₁, h₁⟩ : ∃ t₁, c.apply t = .ok t₁ := by
      cases c with
      | update leafNode i => exact updateLeafNode_returns hg.length hd htarget leafNode
      | remove i =>
        refine removeLeafNode_returns hc hg.length hd htarget hu ?_
          (hright i (List.mem_cons_self ..))
        rintro rfl
        exact hnot (List.mem_cons_self ..)
    obtain ⟨hb, d₁, hd₁, hg₁⟩ := LeafChange.apply_blanked hc hg h₁
    rw [List.map_cons, List.nodup_cons] at hnodup
    have hother : ∀ c' ∈ l, c'.target ≠ c.target := fun c' hc' heq =>
      hnodup.1 (List.mem_map.mpr ⟨c', hc', heq⟩)
    rw [applyChanges_cons, h₁]
    refine ih (hc.blanked hb) hg₁ (hd₁.trans hd) hnodup.2 (fun c' hc' => ?_) ⟨u, ?_, ?_⟩
      fun i hi v hv hne => ?_
    · rw [hb.leaf_ne (hother c' hc')]
      exact hleaves c' (List.mem_cons_of_mem _ hc')
    · by_cases huc : u = c.target
      · cases c with
        | update leafNode i => simp [huc, hb.leaf, LeafChange.leaf]
        | remove i => exact absurd (by rw [huc]; exact List.mem_cons_self ..) hnot
      · rwa [hb.leaf_ne huc]
    · exact fun hmem => hnot (List.mem_cons_of_mem _ hmem)
    · refine hright i (List.mem_cons_of_mem _ hi) v hv ?_
      by_cases hvc : v = c.target
      · rw [hvc]
        exact hleaves c (List.mem_cons_self ..)
      · rwa [← hb.leaf_ne hvc]

/-! ## The changes of a commit -/

/-- The Updates and Removes of a commit, in the order its lists have. -/
def proposedChanges (grouped : Proposals) : List LeafChange :=
  grouped.update.map (fun u => .update u.proposal.leaf (u.senderLeafIndex.getD 0)) ++
    grouped.remove.map fun r => .remove r.proposal

theorem foldlM_applyUpdate {cs : CiphersuiteImpl} {m : TreeMutations} {ratchetTree : RatchetTree}
    {updates : List (Sent LeafNodeUpdate)}
    (h : updates.foldlM (applyUpdate cs m ratchetTree) t = .ok t') :
    applyChanges t (updates.map fun u => .update u.proposal.leaf (u.senderLeafIndex.getD 0)) =
      .ok t' := by
  induction updates generalizing t with
  | nil => exact h
  | cons u updates ih =>
    rw [List.foldlM_cons] at h
    obtain ⟨t₁, hround, h⟩ := bind_eq_ok.mp h
    rw [List.map_cons, applyChanges_cons]
    unfold applyUpdate at hround
    split at hround
    · cases hround
    · rename_i senderLeafIndex hsender
      obtain ⟨_, -, hround⟩ := bind_eq_ok.mp hround
      obtain ⟨_, -, hround⟩ := bind_eq_ok.mp hround
      obtain ⟨_, -, hround⟩ := bind_eq_ok.mp hround
      rw [hsender, Option.getD_some, LeafChange.apply, hround]
      exact ih h

theorem foldlM_applyRemove {ratchetTree : RatchetTree} {removes : List (Sent ℕ)}
    (h : removes.foldlM (applyRemove ratchetTree) t = .ok t') :
    applyChanges t (removes.map fun r => .remove r.proposal) = .ok t' := by
  induction removes generalizing t with
  | nil => exact h
  | cons r removes ih =>
    rw [List.foldlM_cons] at h
    obtain ⟨t₁, hround, h⟩ := bind_eq_ok.mp h
    obtain ⟨_, -, hround⟩ := bind_eq_ok.mp hround
    rw [List.map_cons, applyChanges_cons, LeafChange.apply, hround]
    exact ih h

/-- A commit's Adds start from the tree its Updates and Removes leave. -/
theorem applyTreeMutations_changes {cs : CiphersuiteImpl} {m : TreeMutations} {grouped : Proposals}
    {r : RatchetTree × List (ℕ × KeyPackage)} (h : applyTreeMutations t grouped m cs = .ok r) :
    ∃ t₀, applyChanges t (proposedChanges grouped) = .ok t₀ ∧
      grouped.add.foldlM (applyAdd cs m) (t₀, []) = .ok r := by
  obtain ⟨t₁, hupdate, h⟩ := bind_eq_ok.mp h
  obtain ⟨t₂, hremove, h⟩ := bind_eq_ok.mp h
  refine ⟨t₂, ?_, h⟩
  rw [proposedChanges, applyChanges_append, foldlM_applyUpdate hupdate]
  exact foldlM_applyRemove hremove

/-- For every tree without a parent over an empty side and all changes of different
non-blank leaves that leave a leaf: every order gives the same tree exactly when no
Remove has to leave more than 2 ^ 30 - 1 nodes. Orders that return agree in any
case, and so do two members whose commits list the changes in different orders. -/
theorem changes_in_any_order {changes : List LeafChange} (hg : Grown d t) (hc : Covered t)
    (hnodup : (changes.map LeafChange.target).Nodup)
    (hleaves : ∀ c ∈ changes, slot t 0 c.target ≠ none)
    (hstays : ∃ u, slot t 0 u ≠ none ∧ .remove u ∉ changes) :
    ((∃ t', ∀ l, l.Perm changes → applyChanges t l = .ok t') ↔
      changes = [] ∨ t.length < 2 ^ 31 ∧
        ∀ i, .remove i ∈ changes → ∀ v, 2 ^ 29 ≤ v → slot t 0 v ≠ none → v = i) ∧
    (∀ l l' t₁ t₂, l.Perm changes → l'.Perm changes → applyChanges t l = .ok t₁ →
      applyChanges t l' = .ok t₂ → t₁ = t₂) ∧
    ∀ grouped grouped' m m' cs cs' r r', (proposedChanges grouped).Perm changes →
      (proposedChanges grouped').Perm changes → applyTreeMutations t grouped m cs = .ok r →
      applyTreeMutations t grouped' m' cs' = .ok r' →
      ∃ t₀, grouped.add.foldlM (applyAdd cs m) (t₀, []) = .ok r ∧
        grouped'.add.foldlM (applyAdd cs' m') (t₀, []) = .ok r' := by
  have hsize : t.length < 2 ^ 31 ↔ d ≤ 30 := by
    have h30 : size 30 = 2 ^ 31 - 1 := rfl
    rw [hg.length]
    constructor
    · intro hlt
      by_contra hd
      have := size_mono (show 31 ≤ d by omega)
      have : size 31 = 2 ^ 32 - 1 := rfl
      omega
    · intro hd
      have := size_mono hd
      omega
  have hagree : ∀ l l' t₁ t₂, l.Perm changes → l'.Perm changes → applyChanges t l = .ok t₁ →
      applyChanges t l' = .ok t₂ → t₁ = t₂ := fun l l' t₁ t₂ hl hl' h₁ h₂ =>
    applyChanges_perm hc hg ((hl.map _).nodup_iff.mpr hnodup) (hl'.trans hl.symm) h₁ h₂
  refine ⟨⟨fun ⟨t', hall⟩ => ?_, fun h => ?_⟩, hagree, ?_⟩
  · cases changes with
    | nil => exact .inl rfl
    | cons c changes =>
      have hfirst := hall _ (List.Perm.refl _)
      rw [applyChanges_cons] at hfirst
      obtain ⟨t₁, h₁, -⟩ := bind_eq_ok.mp hfirst
      refine .inr ⟨hsize.mpr ?_, fun i hi v hv hne => ?_⟩
      · cases c with
        | update leafNode i => exact (updateLeafNode_spec hg.length hg.depth h₁).1
        | remove i => exact (removeLeafNode_spec hg.length hg.depth h₁).1
      · -- the order that starts with this Remove
        have hremove := hall _ (List.perm_cons_erase hi).symm
        rw [applyChanges_cons] at hremove
        obtain ⟨t₂, h₂, -⟩ := bind_eq_ok.mp hremove
        exact removeLeafNode_narrows hc hg h₂ hv hne
  · rcases h with rfl | ⟨hlt, hright⟩
    · exact ⟨t, fun l hl => by rw [List.perm_nil.mp hl]; rfl⟩
    · have hreturns : ∀ l, l.Perm changes → ∃ t', applyChanges t l = .ok t' := fun l hl => by
        obtain ⟨u, hu, hnot⟩ := hstays
        exact applyChanges_returns hc hg (hsize.mp hlt) ((hl.map _).nodup_iff.mpr hnodup)
          (fun c hm => hleaves c (hl.mem_iff.mp hm)) ⟨u, hu, fun hm => hnot (hl.mem_iff.mp hm)⟩
          fun i hi => hright i (hl.mem_iff.mp hi)
      obtain ⟨t', ht'⟩ := hreturns changes (List.Perm.refl _)
      refine ⟨t', fun l hl => ?_⟩
      obtain ⟨t'', ht''⟩ := hreturns l hl
      rw [ht'', hagree _ _ _ _ hl (List.Perm.refl _) ht'' ht']
  · intro grouped grouped' m m' cs cs' r r' hp hp' h h'
    obtain ⟨t₀, h₀, hadd⟩ := applyTreeMutations_changes h
    obtain ⟨t₀', h₀', hadd'⟩ := applyTreeMutations_changes h'
    obtain rfl := hagree _ _ _ _ hp hp' h₀ h₀'
    exact ⟨t₀, hadd, hadd'⟩

end

/-- The last of three leaves is removed, which narrows the tree, and the first updated. -/
theorem changes_in_any_order_three : ∃ t', ∀ l : List LeafChange,
    l.Perm [.remove 2, .update default 0] → applyChanges threeLeaves l = .ok t' := by
  obtain ⟨hinv, d, hg⟩ := threeLeaves_reachable.invariant
  refine (changes_in_any_order hg hinv.isCovered (by decide) (by decide)
    ⟨1, by decide, by decide⟩).1.mpr (.inr ⟨by decide, fun i _ v hv hne => absurd ?_ hne⟩)
  refine slot_eq_none_of_le ?_
  have hlen : threeLeaves.length = 7 := rfl
  rw [hlen, InOrder.index_zero]
  omega

/-- With 2 ^ 29 + 1 leaves the last one can be removed before the first, but not after. -/
theorem exists_change_order : ∃ t d t', Grown d t ∧ Represented t ∧ Covered t ∧
    (∀ u ≤ 2 ^ 29, slot t 0 u ≠ none) ∧
    applyChanges t [.remove (2 ^ 29), .remove 0] = .ok t' ∧
    ∀ t'', applyChanges t [.remove 0, .remove (2 ^ 29)] ≠ .ok t'' := by
  obtain ⟨t, d, ht, hf⟩ := exists_filledUpTo (P := Reachable) (l := default) (m := 1)
    (n := 2 ^ 29 + 1) (fun _ _ _ ht h => ht.addLeafNode h)
    ⟨[some (.leaf default)], 0, .init default, filledUpTo_singleton default⟩ (by omega) (by omega)
  obtain ⟨hinv, d', hg⟩ := ht.invariant
  obtain rfl := InOrder.size_inj (hf.length.symm.trans hg.length)
  have hleaf : ∀ u ≤ 2 ^ 29, slot t 0 u ≠ none := fun u hu => (hf.leaf u).mpr (by omega)
  have hlt : 2 ^ 29 < 2 ^ d := by
    obtain ⟨n, hn⟩ := Option.ne_none_iff_exists'.mp (hleaf (2 ^ 29) le_rfl)
    exact InOrder.leaf_lt_size.mp (hf.length ▸ index_lt_of_slot hn)
  obtain ⟨t₁, h₁⟩ := removeLeafNode_returns hinv.isCovered hg.length (hf.depth (by omega)) hlt
    (hleaf 0 (by omega)) (by omega) fun v hv hne => by
      have := (hf.leaf v).mp hne
      omega
  obtain ⟨hb, d₁, hd₁, hg₁⟩ := removeLeafNode_blanked hinv.isCovered hg h₁
  obtain ⟨t', ht'⟩ := applyChanges_returns (l := [.remove 0]) (hinv.isCovered.blanked hb) hg₁
    (by omega) (by simp) (by simpa [LeafChange.target, hb.leaf_ne] using hleaf 0 (by omega))
    ⟨1, by rw [hb.leaf_ne (by omega)]; exact hleaf 1 (by omega), by simp⟩ fun i _ v hv hne => by
      have hvi : v ≠ 2 ^ 29 := by
        rintro rfl
        exact hne hb.leaf
      rw [hb.leaf_ne hvi] at hne
      have := (hf.leaf v).mp hne
      omega
  refine ⟨t, d, t', hg, hinv.represented, hinv.isCovered, hleaf, ?_, fun t'' h => ?_⟩
  · rw [applyChanges_cons, LeafChange.apply, h₁]
    exact ht'
  · rw [applyChanges_cons] at h
    obtain ⟨t₂, h₂, -⟩ := bind_eq_ok.mp h
    have := removeLeafNode_narrows hinv.isCovered hg h₂ le_rfl (hleaf (2 ^ 29) le_rfl)
    omega

end WebcryptoMls
