import WebcryptoMls.ChangeOrder
import WebcryptoMls.FirstFree
import WebcryptoMls.LeafSteps

/-!
# The leaves of the next epoch

Where the leaves stand once a commit is applied. Its Updates and Removes write the places
they name, its Adds fill the first blank places of what is left, and its path writes the
committer's place. Only the leaves are looked at, as a row of places without an end: a
place past the tree is a blank one.
-/
namespace WebcryptoMls
open FirstFree
open InOrder (index size)

/-- The tree array has the size of a full tree. -/
def FullTree (tree : RatchetTree) : Prop := ∃ d ≤ 31, tree.length = size d

/-- The leaf places of a tree. -/
def leafSlots (tree : RatchetTree) : ℕ → Option Node := slot tree 0

theorem leafAt_eq_some {tree : RatchetTree} {i : ℕ} {leaf : LeafNode} :
    leafAt tree i = some leaf ↔ leafSlots tree i = some (.leaf leaf) := by
  rw [leafAt, leafToNodeIndex_eq, nodeAt_coord, leafSlots]
  constructor
  · intro h
    split at h
    · rename_i l hl
      rw [hl, Option.some.inj h]
    · cases h
  · intro h
    rw [h]

/-- What Updates and Removes leave in the leaf places. -/
def afterChanges (slots : ℕ → Option Node) (changes : List LeafChange) : ℕ → Option Node :=
  changes.foldl (fun slots c => Function.update slots c.target (c.leaf.map Node.leaf)) slots

section
variable {slots : ℕ → Option Node} {changes : List LeafChange} {i : ℕ}

theorem afterChanges_cons (c : LeafChange) : afterChanges slots (c :: changes) =
    afterChanges (Function.update slots c.target (c.leaf.map Node.leaf)) changes := rfl

/-- No change names the place, or the last one that does says what is there. -/
theorem afterChanges_cases (slots : ℕ → Option Node) (changes : List LeafChange) (i : ℕ) :
    i ∉ changes.map LeafChange.target ∧ afterChanges slots changes i = slots i ∨
      ∃ c ∈ changes, c.target = i ∧ afterChanges slots changes i = c.leaf.map Node.leaf := by
  induction changes generalizing slots with
  | nil => exact .inl ⟨by simp, rfl⟩
  | cons c changes ih =>
    rw [afterChanges_cons]
    rcases ih (Function.update slots c.target (c.leaf.map Node.leaf)) with
      ⟨hnot, heq⟩ | ⟨c', hc', htarget, heq⟩
    · by_cases hi : i = c.target
      · exact .inr ⟨c, List.mem_cons_self, hi.symm, by rw [heq, hi, Function.update_self]⟩
      · rw [Function.update_of_ne hi] at heq
        refine .inl ⟨?_, heq⟩
        rw [List.map_cons, List.mem_cons, not_or]
        exact ⟨hi, hnot⟩
    · exact .inr ⟨c', List.mem_cons_of_mem c hc', htarget, heq⟩

theorem afterChanges_of_notMem (h : i ∉ changes.map LeafChange.target) :
    afterChanges slots changes i = slots i := by
  rcases afterChanges_cases slots changes i with ⟨-, heq⟩ | ⟨c, hc, rfl, -⟩
  · exact heq
  · exact absurd (List.mem_map_of_mem hc) h

/-- Where no place is named twice, every change is left as it was made. -/
theorem afterChanges_of_nodup (hnodup : (changes.map LeafChange.target).Nodup) {c : LeafChange}
    (hc : c ∈ changes) : afterChanges slots changes c.target = c.leaf.map Node.leaf := by
  rcases afterChanges_cases slots changes c.target with ⟨hnot, -⟩ | ⟨c', hc', htarget, heq⟩
  · exact absurd (List.mem_map_of_mem hc) hnot
  · rwa [List.inj_on_of_nodup_map hnodup hc' hc htarget] at heq

end

/-! ## The tree operations -/

section
variable {t t' : RatchetTree} {leaf : LeafNode} {i : ℕ}

/-- What is written off the leaf places is not seen in them. -/
theorem leafSlots_setNode {n : ℤ} (hn : n % 2 = 1) (v : Option Node) :
    leafSlots (setNode t n v) = leafSlots t := by
  ext1 j
  rw [leafSlots, leafSlots, slot_eq_getElem?, slot_eq_getElem?, setNode, InOrder.index_zero]
  split_ifs
  · rfl
  · rw [List.getElem?_set_ne (by omega)]

theorem leafSlots_blankPath {path : List ℤ} (hodd : ∀ p ∈ path, p % 2 = 1) :
    leafSlots (blankPath t path) = leafSlots t := by
  unfold blankPath
  suffices h : ∀ copy : RatchetTree, leafSlots copy = leafSlots t →
      leafSlots (path.foldl (fun copy nodeIndex =>
        if nodeAt t nodeIndex ≠ none then setNode copy nodeIndex none else copy) copy) =
      leafSlots t from h t rfl
  induction path with
  | nil => exact fun copy hcopy => hcopy
  | cons p path ih =>
    rw [List.forall_mem_cons] at hodd
    intro copy hcopy
    rw [List.foldl_cons]
    apply ih hodd.2
    split_ifs
    · rw [leafSlots_setNode hodd.1, hcopy]
    · exact hcopy

/-- The path above a leaf is blanked and the leaf's place written. -/
theorem leafSlots_blanked {path : List ℤ} {v : Option Node}
    (hpath : directPath (leafToNodeIndex i) (leafWidth t.length) = .ok path) :
    leafSlots (setNode (blankPath t path) (leafToNodeIndex i) v) =
      Function.update (leafSlots t) i v := by
  have hlt : index 0 i < (blankPath t path).length := by
    rw [blankPath_eq, length_writeNodes]
    simp only [directPath, nodeWidth_leafWidth] at hpath
    split_ifs at hpath with hrange
    · cases hpath
    · rw [leafToNodeIndex_eq, coord] at hrange
      omega
  have hkept := leafSlots_blankPath (t := t) (directPath_odd hpath)
  ext1 j
  rw [leafSlots, leafToNodeIndex_eq, slot_setNode hlt, ← hkept]
  by_cases hj : j = i
  · simp [hj]
  · simp [hj, leafSlots]

theorem updateLeafNode_leafSlots (h : updateLeafNode t leaf i = .ok t') :
    t'.length = t.length ∧ leafSlots t' = Function.update (leafSlots t) i (some (.leaf leaf)) := by
  obtain ⟨path, hpath, h⟩ := bind_eq_ok.mp h
  obtain rfl := Except.ok.inj h
  exact ⟨by rw [length_setNode, blankPath_eq, length_writeNodes], leafSlots_blanked hpath⟩

/-- What a Remove leaves is a full tree, whatever it was taken from. -/
theorem removeLeafNode_leafSlots (h : removeLeafNode t i = .ok t') :
    FullTree t' ∧ leafSlots t' = Function.update (leafSlots t) i none := by
  obtain ⟨path, hpath, h⟩ := bind_eq_ok.mp h
  obtain ⟨d, hd, hlen, hslot, -⟩ := condenseRatchetTreeAfterRemove_spec h
  refine ⟨⟨d, by omega, hlen⟩, ?_⟩
  rw [← leafSlots_blanked hpath]
  ext1 j
  exact hslot 0 j

theorem addLeafNode_leafSlots {n : ℤ} (ht : FullTree t) (h : addLeafNode t leaf = .ok (t', n)) :
    FullTree t' ∧ Fills (leafSlots t) (.leaf leaf) (leafSlots t') ∧
      ∃ i, n = leafToNodeIndex i ∧ leafSlots t i = none ∧
        leafSlots t' = Function.update (leafSlots t) i (some (.leaf leaf)) := by
  obtain ⟨d, hd, hlen⟩ := ht
  obtain ⟨i, d', hn, hlen', hd', -, -, hblank, hbefore, hslot⟩ := addLeafNode_spec hlen hd h
  have hupdate : leafSlots t' = Function.update (leafSlots t) i (some (.leaf leaf)) := by
    ext1 j
    by_cases hj : j = i
    · simp [leafSlots, hslot, hj]
    · have hij : i ≠ j := fun heq => hj heq.symm
      simp [leafSlots, hslot, hj, hij]
  exact ⟨⟨d', hd', hlen'⟩, ⟨i, hblank, hbefore, hupdate⟩, i, by rw [hn, leafToNodeIndex_eq], hblank,
    hupdate⟩

/-- An Add writes no place that holds a leaf, whatever the size of the tree. -/
theorem addLeafNode_keeps {n : ℤ} (h : addLeafNode t leaf = .ok (t', n))
    (hi : leafSlots t i ≠ none) : leafSlots t' i = leafSlots t i := by
  unfold addLeafNode at h
  split at h
  · unfold extendTree at h
    split_ifs at h with hmax
    obtain ⟨rfl, -⟩ := Prod.mk.inj (Except.ok.inj h)
    obtain ⟨node, hnode⟩ := Option.ne_none_iff_exists'.mp hi
    rw [leafSlots, leafSlots, slot_eq_getElem?, slot_eq_getElem?,
      List.getElem?_append_left (index_lt_of_slot hnode)]
  · rename_i blankLeaf hblank
    obtain ⟨insertedLeafIndex, -, h⟩ := bind_eq_ok.mp h
    obtain ⟨dp, hdp, h⟩ := bind_eq_ok.mp h
    obtain ⟨copy, hcopy, h⟩ := bind_eq_ok.mp h
    obtain ⟨rfl, -⟩ := Prod.mk.inj (Except.ok.inj h)
    obtain ⟨k, rfl, hk, hnone, -⟩ := findBlankLeafNodeIndex_some hblank
    have hcopy : copy.length = t.length ∧ leafSlots copy = leafSlots t := by
      refine foldlM_inv (P := fun copy : RatchetTree =>
        copy.length = t.length ∧ leafSlots copy = leafSlots t) ⟨rfl, rfl⟩ ?_ hcopy
      intro p hp b c ⟨hlen, hslots⟩ hround
      unfold addUnmergedLeaf at hround
      split at hround
      · obtain rfl := Except.ok.inj hround
        exact ⟨hlen, hslots⟩
      · obtain rfl := Except.ok.inj hround
        rw [length_setNode, leafSlots_setNode (directPath_odd hdp p hp)]
        exact ⟨hlen, hslots⟩
      · cases hround
    have hne : i ≠ k := fun heq => hi (heq ▸ hnone)
    rw [leafSlots, slot_setNode (hcopy.1 ▸ hk), if_neg fun h => hne h.2, ← hcopy.2, leafSlots]

theorem LeafChange.apply_leafSlots {c : LeafChange} (h : c.apply t = .ok t') :
    (FullTree t ∨ c.leaf = none → FullTree t') ∧
      leafSlots t' = Function.update (leafSlots t) c.target (c.leaf.map Node.leaf) := by
  cases c with
  | update leaf i =>
    obtain ⟨hlen, hslots⟩ := updateLeafNode_leafSlots h
    refine ⟨fun hfull => ?_, hslots⟩
    obtain ⟨d, hd, hfull⟩ := hfull.resolve_right (Option.some_ne_none leaf)
    exact ⟨d, hd, hlen.trans hfull⟩
  | remove i =>
    obtain ⟨hfull, hslots⟩ := removeLeafNode_leafSlots h
    exact ⟨fun _ => hfull, hslots⟩

theorem applyChanges_leafSlots {changes : List LeafChange} (h : applyChanges t changes = .ok t') :
    (FullTree t ∨ (∃ c ∈ changes, c.leaf = none) → FullTree t') ∧
      leafSlots t' = afterChanges (leafSlots t) changes := by
  induction changes generalizing t with
  | nil =>
    obtain rfl := Except.ok.inj h
    exact ⟨by simp, rfl⟩
  | cons c changes ih =>
    obtain ⟨t₁, hc, h⟩ := bind_eq_ok.mp ((applyChanges_cons ..).symm.trans h)
    obtain ⟨hfirst, hslots⟩ := LeafChange.apply_leafSlots hc
    obtain ⟨hlater, hafter⟩ := ih h
    rw [afterChanges_cons, ← hslots]
    refine ⟨fun hfull => hlater ?_, hafter⟩
    rcases hfull with hfull | ⟨c', hmem, hleaf⟩
    · exact .inl (hfirst (.inl hfull))
    · rcases List.mem_cons.mp hmem with rfl | hmem
      · exact .inl (hfirst (.inr hleaf))
      · exact .inr ⟨c', hmem, hleaf⟩

theorem applyAdds_leafSlots {cs : CiphersuiteImpl} {m : TreeMutations} {adds : List (Sent KeyPackage)}
    {c result : RatchetTree × List (ℕ × KeyPackage)} (ht : FullTree c.1)
    (h : adds.foldlM (applyAdd cs m) c = .ok result) :
    FullTree result.1 ∧ FillsAll (leafSlots c.1)
      (adds.map fun a => .leaf a.proposal.leafNode.leaf) (leafSlots result.1) := by
  induction adds generalizing c with
  | nil =>
    obtain rfl := Except.ok.inj h
    exact ⟨ht, .nil _⟩
  | cons a adds ih =>
    rw [List.foldlM_cons] at h
    obtain ⟨c₁, hadd, h⟩ := bind_eq_ok.mp h
    obtain ⟨_, -, hadd⟩ := bind_eq_ok.mp hadd
    obtain ⟨_, -, hadd⟩ := bind_eq_ok.mp hadd
    obtain ⟨⟨updatedTree, leafNodeIndex⟩, hfill, hadd⟩ := bind_eq_ok.mp hadd
    obtain ⟨leafIndex, -, hadd⟩ := bind_eq_ok.mp hadd
    obtain rfl := Except.ok.inj hadd
    obtain ⟨ht₁, hfills, -⟩ := addLeafNode_leafSlots ht hfill
    obtain ⟨ht', hall⟩ := ih ht₁ h
    exact ⟨ht', .cons hfills hall⟩

theorem applyAdds_keeps {cs : CiphersuiteImpl} {m : TreeMutations} {adds : List (Sent KeyPackage)}
    {c result : RatchetTree × List (ℕ × KeyPackage)} (h : adds.foldlM (applyAdd cs m) c = .ok result)
    (hi : leafSlots c.1 i ≠ none) : leafSlots result.1 i = leafSlots c.1 i := by
  refine foldlM_inv (P := fun b : RatchetTree × List (ℕ × KeyPackage) =>
    leafSlots b.1 i = leafSlots c.1 i) rfl ?_ h
  intro a _ b b' hb hadd
  obtain ⟨_, -, hadd⟩ := bind_eq_ok.mp hadd
  obtain ⟨_, -, hadd⟩ := bind_eq_ok.mp hadd
  obtain ⟨⟨updatedTree, leafNodeIndex⟩, hfill, hadd⟩ := bind_eq_ok.mp hadd
  obtain ⟨leafIndex, -, hadd⟩ := bind_eq_ok.mp hadd
  obtain rfl := Except.ok.inj hadd
  rw [addLeafNode_keeps hfill (hb.symm ▸ hi), hb]

theorem pathWritten_leafSlots {h : Hash} {d : ℕ} {l : LeafNodeCommit} (hd : d ≤ 31)
    (hw : PathWritten h t t' d i l) :
    FullTree t' ∧ leafSlots t' = Function.update (leafSlots t) i (some (.leaf l.leaf)) := by
  refine ⟨⟨d, hd, hw.length⟩, ?_⟩
  ext1 j
  by_cases hj : j = i
  · simp [leafSlots, hj, hw.leaf]
  · simp only [leafSlots, Function.update_of_ne hj]
    exact hw.other 0 j (fun h => hj h.2) fun m _ h => by omega

end

/-! ## The proposals of a commit -/

theorem someTwo_eq_false {α : Type} {related : α → α → Bool} {l : List α}
    (h : someTwo related l = false) {i j : ℕ} (hi : i < l.length) (hj : j < l.length)
    (hne : i ≠ j) : related l[i] l[j] = false := by
  by_contra hrel
  rw [Bool.not_eq_false] at hrel
  rw [← Bool.not_eq_true, someTwo, List.any_eq_true] at h
  refine h ⟨(l[i], i), List.mem_zipIdx_iff_getElem?.mpr (List.getElem?_eq_getElem hi), ?_⟩
  refine List.any_eq_true.mpr
    ⟨(l[j], j), List.mem_zipIdx_iff_getElem?.mpr (List.getElem?_eq_getElem hj), ?_⟩
  simpa [hrel] using hne

theorem nodup_map_of_someTwo {α β : Type} {related : α → α → Bool} {l : List α} {f : α → β}
    (h : someTwo related l = false) (hf : ∀ a ∈ l, ∀ b ∈ l, f a = f b → related a b = true) :
    (l.map f).Nodup := by
  rw [List.nodup_iff_injective_getElem]
  intro ⟨i, hi⟩ ⟨j, hj⟩ heq
  rw [List.length_map] at hi hj
  simp only [List.getElem_map] at heq
  by_contra hne
  have hrel := hf _ (List.getElem_mem hi) _ (List.getElem_mem hj) heq
  rw [someTwo_eq_false h hi hj fun h => hne (Fin.ext h)] at hrel
  cases hrel

/-- No two of a commit's Updates and Removes name one leaf. -/
theorem proposedChanges_nodup {grouped : Proposals}
    (h : multipleUpdateRemoveForSameLeaf grouped = false)
    (hsender : ∀ u ∈ grouped.update, ∃ i, u.senderLeafIndex = some i) :
    ((proposedChanges grouped).map LeafChange.target).Nodup := by
  simp only [multipleUpdateRemoveForSameLeaf, Bool.or_eq_false_iff] at h
  obtain ⟨⟨hupdates, hboth⟩, hremoves⟩ := h
  have hupdate : (grouped.update.map fun u => u.senderLeafIndex.getD 0).Nodup := by
    refine nodup_map_of_someTwo hupdates fun a ha b hb heq => ?_
    obtain ⟨i, hi⟩ := hsender a ha
    obtain ⟨j, hj⟩ := hsender b hb
    rw [hi, hj] at heq ⊢
    simpa using heq
  have hremove : (grouped.remove.map Sent.proposal).Nodup :=
    nodup_map_of_someTwo hremoves fun a _ b _ heq => beq_iff_eq.mpr heq.symm
  have htargets : (proposedChanges grouped).map LeafChange.target =
      (grouped.update.map fun u => u.senderLeafIndex.getD 0) ++ grouped.remove.map Sent.proposal := by
    simp [proposedChanges, LeafChange.target, Function.comp_def]
  rw [htargets, List.nodup_append]
  refine ⟨hupdate, hremove, fun i hi j hj heq => ?_⟩
  obtain ⟨u, hu, rfl⟩ := List.mem_map.mp hi
  obtain ⟨r, hr, rfl⟩ := List.mem_map.mp hj
  obtain ⟨i, hi⟩ := hsender u hu
  have hany := List.any_eq_false.mp hboth u hu
  refine hany (List.any_eq_true.mpr ⟨r, hr, ?_⟩)
  rw [hi, Option.getD_some] at heq
  rw [hi, ← heq, beq_self_eq_true]

/-- The conditions `validateProposals` puts on a commit's proposals. -/
structure ProposalsValid (p : Proposals) (committerLeafIndex : Option ℕ)
    (groupContext contextAfterExtensions : GroupContext) (authService : AuthenticationService)
    (tree : RatchetTree) : Prop where
  ownUpdate : ∀ u ∈ p.update, ∀ i, u.senderLeafIndex = some i → committerLeafIndex ≠ some i
  ownRemove : ∀ r ∈ p.remove, committerLeafIndex ≠ some r.proposal
  distinct : multipleUpdateRemoveForSameLeaf p = false
  added : ∀ a ∈ p.add, extensionsSupportedByCapabilities contextAfterExtensions.extensions
    a.proposal.leafNode.leaf.capabilities = true
  extensions : validateProposalExtensions p groupContext authService tree = .ok none

theorem validateProposals_eq_ok {p : Proposals} {committerLeafIndex : Option ℕ}
    {groupContext contextAfterExtensions : GroupContext} {config : KeyPackageEqualityConfig}
    {authService : AuthenticationService} {tree : RatchetTree}
    (h : validateProposals p committerLeafIndex groupContext contextAfterExtensions config
      authService tree = .ok none) :
    ProposalsValid p committerLeafIndex groupContext contextAfterExtensions authService tree := by
  unfold validateProposals at h
  split at h
  · cases h
  rename_i hupdate
  split at h
  · cases h
  rename_i hremove
  split at h
  · cases h
  rename_i hdistinct
  split at h
  · cases h
  obtain ⟨existing, -, h⟩ := bind_eq_ok.mp h
  split at h
  · cases h
  split at h
  · cases h
  rename_i hadd
  rw [Bool.not_eq_true', Bool.not_eq_false, List.all_eq_true] at hadd
  refine ⟨fun u hu i hi heq => ?_, fun r hr heq => ?_, Bool.eq_false_iff.mpr hdistinct, hadd, h⟩
  · exact hupdate (List.any_eq_true.mpr ⟨u, hu, by simp [hi, heq]⟩)
  · exact hremove (List.any_eq_true.mpr ⟨r, hr, by simp [heq]⟩)

/-- The leaves a commit's Adds place. -/
def addedLeaves (grouped : Proposals) : List Node :=
  grouped.add.map fun a => .leaf a.proposal.leafNode.leaf

section
variable {cs : CiphersuiteImpl} {m : TreeMutations} {grouped : Proposals} {t : RatchetTree}

theorem exists_removal (h : grouped.remove ≠ []) : ∃ c ∈ proposedChanges grouped, c.leaf = none := by
  obtain ⟨r, hr⟩ := List.exists_mem_of_ne_nil _ h
  exact ⟨.remove r.proposal, List.mem_append_right _ (List.mem_map_of_mem hr), rfl⟩

theorem applyTreeMutations_leafSlots {result : RatchetTree × List (ℕ × KeyPackage)}
    (ht : FullTree t ∨ grouped.remove ≠ []) (h : applyTreeMutations t grouped m cs = .ok result) :
    FullTree result.1 ∧ FillsAll (afterChanges (leafSlots t) (proposedChanges grouped))
      (addedLeaves grouped) (leafSlots result.1) := by
  obtain ⟨t₀, hchanges, hadds⟩ := applyTreeMutations_changes h
  obtain ⟨hfull, hslots⟩ := applyChanges_leafSlots hchanges
  rw [← hslots]
  exact applyAdds_leafSlots (c := (t₀, [])) (hfull (ht.imp_right exists_removal)) hadds

/-- Of the proposals only a Remove takes a leaf out of its place. -/
theorem applyTreeMutations_blanks {i : ℕ} {result : RatchetTree × List (ℕ × KeyPackage)}
    (h : applyTreeMutations t grouped m cs = .ok result) (hi : leafSlots t i ≠ none)
    (hblank : leafSlots result.1 i = none) : ∃ r ∈ grouped.remove, r.proposal = i := by
  obtain ⟨t₀, hchanges, hadds⟩ := applyTreeMutations_changes h
  have hslots := (applyChanges_leafSlots hchanges).2
  have hnone : leafSlots t₀ i = none := by
    by_contra hne
    rw [applyAdds_keeps hadds hne] at hblank
    exact hne hblank
  rw [hslots] at hnone
  rcases afterChanges_cases (leafSlots t) (proposedChanges grouped) i with
    ⟨-, heq⟩ | ⟨c, hc, rfl, heq⟩
  · exact absurd (heq.symm.trans hnone) hi
  · rw [heq] at hnone
    cases c with
    | update leaf k => cases hnone
    | remove k =>
      rcases List.mem_append.mp hc with hmem | hmem
      · obtain ⟨u, -, hu⟩ := List.mem_map.mp hmem
        cases hu
      · obtain ⟨r, hr, heq⟩ := List.mem_map.mp hmem
        exact ⟨r, hr, LeafChange.remove.inj heq⟩

theorem applyTreeMutations_senders {result : RatchetTree × List (ℕ × KeyPackage)}
    (h : applyTreeMutations t grouped m cs = .ok result) :
    ∀ u ∈ grouped.update, ∃ i, u.senderLeafIndex = some i := by
  obtain ⟨treeAfterUpdate, hupdate, -⟩ := bind_eq_ok.mp h
  intro u hu
  obtain ⟨c, c', hround⟩ := foldlM_round_ok hupdate hu
  unfold applyUpdate at hround
  split at hround
  · cases hround
  · exact ⟨_, ‹_›⟩

/-- A ReInit changes no leaf. -/
theorem groupProposals_reinit_changes {p : ProposalWithSender} {reinit : Sent Reinit}
    {rest : List (Sent Reinit)} (h : (groupProposals [p]).reinit = reinit :: rest) :
    proposedChanges (groupProposals [p]) = [] ∧ addedLeaves (groupProposals [p]) = [] := by
  obtain ⟨proposal, senderLeafIndex, senderType⟩ := p
  cases proposal <;>
    simp_all [groupProposals, groupProposal, emptyProposals, proposedChanges, addedLeaves]

variable {state : ClientState cs.signature} {proposals : List ProposalOrRef}
  {committerLeafIndex : Option ℕ} {pskSearch : PskIndex} {sentByClient : Bool}
  {newMemberLeafNode : Option LeafNode} {senderType : SenderTypeName} {currentTime : ℤ}
  {result : ApplyProposalsResult}

theorem applyReinit_changes {allProposals : List ProposalWithSender} {reinit : Sent Reinit}
    {rest : List (Sent Reinit)} (hreinit : (groupProposals allProposals).reinit = reinit :: rest)
    (h : applyReinit cs state allProposals reinit.proposal = .ok result) :
    proposedChanges (groupProposals allProposals) = [] ∧
      addedLeaves (groupProposals allProposals) = [] := by
  obtain ⟨_, hvalid, -⟩ := bind_eq_ok.mp h
  have hone := throwIfDefined_eq_ok.mp hvalid
  unfold validateReinit at hone
  split_ifs at hone with hlen
  obtain ⟨p, rfl⟩ := List.length_eq_one_iff.mp (not_not.mp hlen)
  exact groupProposals_reinit_changes hreinit

/-- An external commit's proposals change leaves by its Remove alone. -/
theorem applyExternalProposals_leafSlots {allProposals : List ProposalWithSender}
    (ht : FullTree state.ratchetTree ∨ grouped.remove ≠ [])
    (h : applyExternalProposals cs state allProposals grouped pskSearch newMemberLeafNode =
      .ok result) :
    FullTree result.tree ∧ FillsAll (afterChanges (leafSlots state.ratchetTree)
      (proposedChanges grouped)) (addedLeaves grouped) (leafSlots result.tree) := by
  have hnone := applyExternalProposals_leaves h
  simp only [proposedLeaves, List.append_eq_nil_iff, List.map_eq_nil_iff] at hnone
  have hchanges : applyChanges state.ratchetTree (proposedChanges grouped) = .ok result.tree := by
    rw [proposedChanges, hnone.1, List.map_nil, List.nil_append, applyChanges, List.foldlM_map]
    exact (applyExternalProposals_eq_ok h).1
  obtain ⟨hfull, hslots⟩ := applyChanges_leafSlots hchanges
  rw [addedLeaves, hnone.2, List.map_nil, hslots]
  exact ⟨hfull (ht.imp_right exists_removal), .nil _⟩

/-- Where the leaves stand once a commit's proposals are applied. -/
theorem applyProposals_leafSlots {allProposals : List ProposalWithSender}
    (hall : resolveProposals state committerLeafIndex senderType proposals = .ok allProposals)
    (ht : FullTree state.ratchetTree ∨ (groupProposals allProposals).remove ≠ [])
    (h : applyProposals cs state proposals committerLeafIndex pskSearch sentByClient
      newMemberLeafNode senderType currentTime = .ok result) :
    FullTree result.tree ∧ FillsAll (afterChanges (leafSlots state.ratchetTree)
      (proposedChanges (groupProposals allProposals))) (addedLeaves (groupProposals allProposals))
      (leafSlots result.tree) := by
  obtain ⟨_, hall', -, h⟩ := applyProposals_eq_ok h
  obtain rfl := Except.ok.inj (hall.symm.trans hall')
  simp only [applyGroupedProposals] at h
  split_ifs at h with hexternal
  · exact applyExternalProposals_leafSlots ht h
  · split at h
    · rename_i reinit rest hreinit
      obtain ⟨hchanges, hadds⟩ := applyReinit_changes hreinit h
      rw [hchanges, hadds, (applyReinit_eq_ok h).1]
      have hfull : FullTree state.ratchetTree := ht.resolve_right fun hremove => by
        obtain ⟨c, hc, -⟩ := exists_removal hremove
        rw [hchanges] at hc
        cases hc
      exact ⟨hfull, .nil _⟩
    · obtain ⟨tree, addedLeafNodes, _, _, -, htree, rfl⟩ := applyMemberProposals_eq_ok h
      exact applyTreeMutations_leafSlots ht htree

end

/-! ## The path of a commit -/

/-- The committer's place under the leaf of its path. -/
def withPathLeaf (slots : ℕ → Option Node) (committer : ℕ) (path : Option UpdatePath) :
    ℕ → Option Node :=
  match path with
  | none => slots
  | some path => Function.update slots committer (some (.leaf path.leafNode.leaf))

/-- Writing a parent node puts no leaf anywhere. -/
theorem holdsLeaf_of_setNode_parent {t : RatchetTree} {n : ℕ} {k : ℤ} {p : ParentNode}
    {leaf : LeafNode} (h : HoldsLeaf (setNode t k (some (.parent p))) n leaf) :
    HoldsLeaf t n leaf := by
  rcases holds_setNode h with ⟨-, hv⟩ | ⟨-, hn⟩
  · cases hv
  · exact hn

/-- A path that is created places the committer's leaf, changed as the patch says, and no
other. -/
theorem createUpdatePath_leaf {t : RatchetTree} {i : ℕ} {gc : GroupContext} {cs : CiphersuiteImpl}
    {key : cs.signature.SignatureSecretKey} {coins : PathCoins} {exclude : List ℤ}
    {patch : ResolvedLeafNodePatch cs.signature} {created : CreatedPath cs}
    (h : createUpdatePath t i gc cs key coins exclude patch = .ok created) :
    ∃ original, HoldsLeaf t (2 * i) original ∧
      created.updatePath.leafNode.leaf.credential = patch.credential.getD original.credential ∧
      created.updatePath.leafNode.leaf.capabilities =
        patch.capabilities.getD original.capabilities ∧
      ∀ n leaf, HoldsLeaf created.tree n leaf →
        n = 2 * i ∧ leaf = created.updatePath.leafNode.leaf ∨ n ≠ 2 * i ∧ HoldsLeaf t n leaf := by
  simp only [createUpdatePath] at h
  split at h
  · rename_i original horiginal
    obtain ⟨leafNodeSecret, -, h⟩ := bind_eq_ok.mp h
    obtain ⟨keyPair, -, h⟩ := bind_eq_ok.mp h
    obtain ⟨fdp, -, h⟩ := bind_eq_ok.mp h
    obtain ⟨written, hwritten, h⟩ := bind_eq_ok.mp h
    obtain ⟨hashed, hhashed, h⟩ := bind_eq_ok.mp h
    obtain ⟨leafParentHash, -, h⟩ := bind_eq_ok.mp h
    obtain ⟨hpkePublicKey, -, h⟩ := bind_eq_ok.mp h
    obtain ⟨updatedLeafNode, hsigned, h⟩ := bind_eq_ok.mp h
    obtain ⟨treeHash, -, h⟩ := bind_eq_ok.mp h
    obtain ⟨nodes, -, h⟩ := bind_eq_ok.mp h
    obtain ⟨signature, hleaf⟩ := signLeafNodeCommit_eq_ok hsigned
    have hw : ∀ n leaf, HoldsLeaf written.1 n leaf → HoldsLeaf t n leaf := by
      refine foldlM_inv (P := fun s : RatchetTree × List PathSecret =>
        ∀ n leaf, HoldsLeaf s.1 n leaf → HoldsLeaf t n leaf) (fun _ _ hn => hn) ?_ hwritten
      intro node _ b c hb hc n leaf hn
      obtain ⟨secret, -, hc⟩ := bind_eq_ok.mp hc
      obtain ⟨nextPathSecret, -, hc⟩ := bind_eq_ok.mp hc
      obtain ⟨nextNodeSecret, -, hc⟩ := bind_eq_ok.mp hc
      obtain ⟨pair, -, hc⟩ := bind_eq_ok.mp hc
      obtain ⟨exported, -, hc⟩ := bind_eq_ok.mp hc
      obtain rfl := Except.ok.inj hc
      exact hb n leaf (holdsLeaf_of_setNode_parent hn)
    have hh : ∀ n leaf, HoldsLeaf hashed n leaf → HoldsLeaf t n leaf := by
      refine foldlM_inv (P := fun c : RatchetTree =>
        ∀ n leaf, HoldsLeaf c n leaf → HoldsLeaf t n leaf) hw ?_ hhashed
      intro node _ b c hb hc n leaf hn
      obtain ⟨parentHash, -, hc⟩ := bind_eq_ok.mp hc
      dsimp only at hc
      split at hc
      · obtain rfl := Except.ok.inj hc
        exact hb n leaf (holdsLeaf_of_setNode_parent hn)
      · cases hc
    have hplace : HoldsLeaf t (2 * i) original := by
      rw [leafToNodeIndex_natCast, nodeAt, if_neg (by omega), Int.toNat_natCast,
        Option.join_eq_some_iff] at horiginal
      exact horiginal
    obtain rfl := Except.ok.inj h
    refine ⟨original, hplace, by rw [hleaf], by rw [hleaf], fun n leaf hn => ?_⟩
    have hset : NodeAt (setNode hashed (2 * i : ℕ) (some (.leaf updatedLeafNode.leaf))) n
        (.leaf leaf) := by
      rw [← leafToNodeIndex_natCast]
      exact hn
    rcases holds_setNode hset with ⟨heq, hv⟩ | ⟨hne, hn⟩
    · exact .inl ⟨by omega, (Node.leaf.inj (Option.some.inj hv)).symm⟩
    · exact .inr ⟨by omega, hh n leaf hn⟩
  · cases h

section
variable {cs : CiphersuiteImpl} {state : ClientState cs.signature}

theorem createCommitPath_leafSlots {res : ApplyProposalsResult}
    {patch : Option (ResolvedLeafNodePatch cs.signature)} {coins : PathCoins} {path : CommitPath cs}
    (ht : FullTree res.tree) (h : createCommitPath cs state res patch coins = .ok path) :
    FullTree path.tree ∧ leafSlots path.tree =
      withPathLeaf (leafSlots res.tree) state.privatePath.leafIndex path.updatePath := by
  obtain ⟨d, hd, hlen⟩ := ht
  unfold createCommitPath at h
  dsimp only at h
  split at h
  · split_ifs at h
    · obtain ⟨created, hcreate, h⟩ := bind_eq_ok.mp h
      obtain rfl := Except.ok.inj h
      exact pathWritten_leafSlots hd (createUpdatePath_spec hlen hd hcreate).1
    · obtain rfl := Except.ok.inj h
      exact ⟨⟨d, hd, hlen⟩, rfl⟩
  · obtain ⟨created, hcreate, h⟩ := bind_eq_ok.mp h
    obtain ⟨_, -, h⟩ := bind_eq_ok.mp h
    obtain ⟨_, -, h⟩ := bind_eq_ok.mp h
    obtain rfl := Except.ok.inj h
    exact pathWritten_leafSlots hd (createUpdatePath_spec hlen hd hcreate).1

/-- A path that is received is written from its sender's leaf, or from a blank one. -/
theorem applyTreeUpdate_leafSlots {path : Option UpdatePath} {sender : Sender} {tree : RatchetTree}
    {privatePath : PrivateKeyPath} {groupContext : GroupContext} {excludeNodes : List ℤ}
    {update : TreeUpdate} (ht : FullTree tree)
    (h : applyTreeUpdate cs path sender tree privatePath groupContext excludeNodes = .ok update) :
    FullTree update.tree ∧ ∃ committer,
      (sender = .member committer ∨ getSenderLeafNodeIndex sender = none ∧
        (path ≠ none → leafSlots tree committer = none)) ∧
      leafSlots update.tree = withPathLeaf (leafSlots tree) committer path := by
  have htree {updatedTree : RatchetTree} {i : ℕ} {path : UpdatePath} (h : applyUpdatedTree cs
      updatedTree privatePath i groupContext path excludeNodes = .ok update) :
      update.tree = updatedTree := by
    obtain ⟨treeHash, -, h⟩ := bind_eq_ok.mp h
    obtain ⟨updated, -, h⟩ := bind_eq_ok.mp h
    rw [← Except.ok.inj h]
  have hmember : ∃ committer, sender = .member committer ∨ getSenderLeafNodeIndex sender = none := by
    cases sender with
    | member i => exact ⟨i, .inl rfl⟩
    | _ => exact ⟨0, .inr rfl⟩
  cases path with
  | none =>
    obtain ⟨treeHash, -, h⟩ := bind_eq_ok.mp h
    obtain rfl := Except.ok.inj h
    obtain ⟨committer, hsender⟩ := hmember
    exact ⟨ht, committer, hsender.imp_right fun h => ⟨h, fun h => absurd rfl h⟩, rfl⟩
  | some path =>
    unfold applyTreeUpdate at h
    dsimp only at h
    split at h
    · rename_i i
      obtain ⟨updatedTree, happly, h⟩ := bind_eq_ok.mp h
      obtain ⟨d, hd, hlen⟩ := ht
      rw [htree h]
      obtain ⟨hfull, hslots⟩ := pathWritten_leafSlots hd (applyUpdatePath_spec hlen hd happly).1
      exact ⟨hfull, i, .inl rfl, hslots⟩
    · rename_i hnot
      obtain ⟨⟨treeWithLeafNode, leafNodeIndex⟩, hadd, h⟩ := bind_eq_ok.mp h
      obtain ⟨senderLeafIndex, hsender, h⟩ := bind_eq_ok.mp h
      obtain ⟨updatedTree, happly, h⟩ := bind_eq_ok.mp h
      obtain ⟨⟨d, hd, hlen⟩, -, i, hplace, hblank, hadded⟩ := addLeafNode_leafSlots ht hadd
      rw [hplace, leafToNodeIndex_natCast] at hsender
      obtain rfl : i = senderLeafIndex := by
        have := nodeToLeafIndex_natCast hsender
        omega
      obtain ⟨hfull, hslots⟩ := pathWritten_leafSlots hd (applyUpdatePath_spec hlen hd happly).1
      rw [hadded, Function.update_idem] at hslots
      have hown : getSenderLeafNodeIndex sender = none := by
        obtain ⟨i, rfl | hnone⟩ := hmember
        · exact absurd rfl (hnot i)
        · exact hnone
      rw [htree h]
      exact ⟨hfull, i, .inr ⟨hown, fun _ => hblank⟩, hslots⟩

end

/-! ## A whole commit -/

/-- What the proposals and then the path of a commit make of the leaf places. -/
structure LeavesCommitted (t mid t' : RatchetTree) (grouped : Proposals) (committer : ℕ)
    (path : Option UpdatePath) : Prop where
  proposals : FillsAll (afterChanges (leafSlots t) (proposedChanges grouped)) (addedLeaves grouped)
    (leafSlots mid)
  path : leafSlots t' = withPathLeaf (leafSlots mid) committer path

/-- The place of the committer's leaf: a member's own, or one that is blank before. -/
def CommitterAt (sender : Sender) (mid : RatchetTree) (committer : ℕ) (path : Option UpdatePath) :
    Prop :=
  sender = .member committer ∨
    getSenderLeafNodeIndex sender = none ∧ (path ≠ none → leafSlots mid committer = none)

theorem CommitParts.Creates.leaves {cs : CiphersuiteImpl} {p : CommitParts cs}
    {state : ClientState cs.signature} {pskIndex : PskIndex}
    {options : CreateCommitOptions cs.signature} {coins : CommitCoins} {currentTime : ℤ}
    {result : CreateCommitResult cs.signature}
    (h : p.Creates state pskIndex options coins currentTime result)
    (ht : FullTree state.ratchetTree) : FullTree result.newState.ratchetTree ∧ ∃ allProposals,
      resolveProposals state (some state.privatePath.leafIndex) .member p.proposals =
        .ok allProposals ∧
      LeavesCommitted state.ratchetTree p.applied.tree result.newState.ratchetTree
        (groupProposals allProposals) state.privatePath.leafIndex p.path.updatePath := by
  obtain ⟨allProposals, hall, -⟩ := applyProposals_eq_ok h.applied
  obtain ⟨hmid, hfills⟩ := applyProposals_leafSlots hall (.inl ht) h.applied
  obtain ⟨hfull, hpath⟩ := createCommitPath_leafSlots hmid h.path
  rw [h.ratchetTree]
  exact ⟨hfull, allProposals, hall, hfills, hpath⟩

theorem FollowedCommit.Follows.leaves {cs : CiphersuiteImpl} {f : FollowedCommit cs}
    {state : ClientState cs.signature} {pskSearch : PskIndex} {currentTime : ℤ}
    (h : f.Follows state pskSearch currentTime) (ht : FullTree state.ratchetTree) :
    FullTree (f.newState state).ratchetTree ∧ ∃ allProposals committer,
      resolveProposals state (getSenderLeafNodeIndex f.content.content.sender)
        f.content.content.sender.senderType f.commit.proposals = .ok allProposals ∧
      CommitterAt f.content.content.sender f.applied.tree committer f.commit.path ∧
      LeavesCommitted state.ratchetTree f.applied.tree (f.newState state).ratchetTree
        (groupProposals allProposals) committer f.commit.path := by
  obtain ⟨allProposals, hall, -⟩ := applyProposals_eq_ok h.applied
  obtain ⟨hmid, hfills⟩ := applyProposals_leafSlots hall (.inl ht) h.applied
  obtain ⟨hfull, committer, hcommitter, hpath⟩ :=
    applyTreeUpdate_leafSlots hmid (deriveNextEpoch_eq_ok h.next).1
  exact ⟨hfull, allProposals, committer, hall, hcommitter, hfills, hpath⟩

section
variable {t mid t' : RatchetTree} {grouped : Proposals} {committer : ℕ} {path : Option UpdatePath}
  {i : ℕ} {leaf : LeafNode}

/-- Under the proposals a leaf is one of theirs, or stood in its place and is named by none. -/
theorem cases_of_fillsAll (h : FillsAll (afterChanges (leafSlots t) (proposedChanges grouped))
      (addedLeaves grouped) (leafSlots mid)) (hi : leafSlots mid i = some (.leaf leaf)) :
    leaf ∈ proposedLeaves grouped ∨
      i ∉ (proposedChanges grouped).map LeafChange.target ∧ leafSlots t i = some (.leaf leaf) := by
  rcases h.value hi with hold | ⟨-, hadd⟩
  · rcases afterChanges_cases (leafSlots t) (proposedChanges grouped) i with
      ⟨hnot, heq⟩ | ⟨c, hc, -, heq⟩
    · exact .inr ⟨hnot, by rw [← heq, hold]⟩
    · rw [heq] at hold
      cases c with
      | update updated k =>
        obtain rfl := Node.leaf.inj (Option.some.inj hold)
        simp only [proposedChanges, List.mem_append, List.mem_map, LeafChange.update.injEq,
          reduceCtorEq, and_false, exists_false, or_false] at hc
        obtain ⟨u, hu, rfl, -⟩ := hc
        exact .inl (List.mem_append_left _ (List.mem_map_of_mem hu))
      | remove k => cases hold
  · obtain ⟨a, ha, heq⟩ := List.mem_map.mp hadd
    obtain rfl := Node.leaf.inj heq
    exact .inl (List.mem_append_right _ (List.mem_map_of_mem ha))

/-- A leaf of the next epoch was brought in by the commit, or stood in its place and no
proposal named it. -/
theorem LeavesCommitted.cases (h : LeavesCommitted t mid t' grouped committer path)
    (hi : leafSlots t' i = some (.leaf leaf)) :
    leaf ∈ proposedLeaves grouped ++ pathLeaves path ∨
      i ∉ (proposedChanges grouped).map LeafChange.target ∧ leafSlots t i = some (.leaf leaf) := by
  rw [h.path] at hi
  cases path with
  | none => exact (cases_of_fillsAll h.proposals hi).imp_left (List.mem_append_left _)
  | some path =>
    simp only [withPathLeaf] at hi
    by_cases heq : i = committer
    · rw [heq, Function.update_self] at hi
      obtain rfl := Node.leaf.inj (Option.some.inj hi)
      exact .inl (List.mem_append_right _ (by simp [pathLeaves]))
    · rw [Function.update_of_ne heq] at hi
      exact (cases_of_fillsAll h.proposals hi).imp_left (List.mem_append_left _)

/-- The leaves of Updates and Adds have their places before the path is applied. -/
theorem LeavesCommitted.exists_place_mid (h : LeavesCommitted t mid t' grouped committer path)
    (hnodup : ((proposedChanges grouped).map LeafChange.target).Nodup)
    (hleaf : leaf ∈ proposedLeaves grouped) : ∃ i, leafSlots mid i = some (.leaf leaf) ∧
      (i ∈ (proposedChanges grouped).map LeafChange.target ∨ leafSlots t i = none) := by
  rcases List.mem_append.mp hleaf with hmem | hmem
  · obtain ⟨u, hu, rfl⟩ := List.mem_map.mp hmem
    set c : LeafChange := .update u.proposal.leaf (u.senderLeafIndex.getD 0)
    have hc : c ∈ proposedChanges grouped := List.mem_append_left _ (List.mem_map_of_mem hu)
    have hafter : afterChanges (leafSlots t) (proposedChanges grouped) c.target =
        some (.leaf u.proposal.leaf) := afterChanges_of_nodup hnodup hc
    exact ⟨c.target, by rw [h.proposals.keeps (by simp [hafter]), hafter],
      .inl (List.mem_map_of_mem hc)⟩
  · obtain ⟨a, ha, rfl⟩ := List.mem_map.mp hmem
    obtain ⟨i, hblank, hi⟩ := h.proposals.exists_place (a := .leaf a.proposal.leafNode.leaf)
      (List.mem_map_of_mem ha)
    refine ⟨i, hi, ?_⟩
    by_cases htarget : i ∈ (proposedChanges grouped).map LeafChange.target
    · exact .inl htarget
    · rw [afterChanges_of_notMem htarget] at hblank
      exact .inr hblank

/-- The leaves a commit brings in stand in the next epoch's tree, where the path's leaf
takes the committer's own place or a blank one. -/
theorem LeavesCommitted.exists_place (h : LeavesCommitted t mid t' grouped committer path)
    (hnodup : ((proposedChanges grouped).map LeafChange.target).Nodup)
    (hown : path ≠ none → committer ∉ (proposedChanges grouped).map LeafChange.target ∧
      leafSlots t committer ≠ none ∨ leafSlots mid committer = none)
    (hleaf : leaf ∈ proposedLeaves grouped ++ pathLeaves path) :
    ∃ i, leafSlots t' i = some (.leaf leaf) := by
  rw [h.path]
  cases path with
  | none =>
    obtain ⟨i, hi, -⟩ := h.exists_place_mid hnodup (by simpa [pathLeaves] using hleaf)
    exact ⟨i, hi⟩
  | some path =>
    rcases List.mem_append.mp hleaf with hmem | hmem
    · obtain ⟨i, hi, hplace⟩ := h.exists_place_mid hnodup hmem
      have hne : i ≠ committer := by
        rintro rfl
        rcases hown (Option.some_ne_none path) with ⟨hnot, hfilled⟩ | hblank
        · exact hplace.elim hnot hfilled
        · rw [hblank] at hi
          cases hi
      exact ⟨i, by rw [withPathLeaf, Function.update_of_ne hne, hi]⟩
    · obtain rfl : leaf = path.leafNode.leaf := by simpa [pathLeaves] using hmem
      exact ⟨committer, Function.update_self ..⟩

end

/-- A commit that is applied names no leaf twice and not its sender's. -/
theorem applyProposals_targets {cs : CiphersuiteImpl} {state : ClientState cs.signature}
    {proposals : List ProposalOrRef} {committerLeafIndex : Option ℕ} {pskSearch : PskIndex}
    {sentByClient : Bool} {newMemberLeafNode : Option LeafNode} {senderType : SenderTypeName}
    {currentTime : ℤ} {result : ApplyProposalsResult} {allProposals : List ProposalWithSender}
    (hall : resolveProposals state committerLeafIndex senderType proposals = .ok allProposals)
    (h : applyProposals cs state proposals committerLeafIndex pskSearch sentByClient
      newMemberLeafNode senderType currentTime = .ok result) :
    ((proposedChanges (groupProposals allProposals)).map LeafChange.target).Nodup ∧
      (senderType = .member → ∀ i, committerLeafIndex = some i →
        i ∉ (proposedChanges (groupProposals allProposals)).map LeafChange.target) := by
  obtain ⟨_, hall', hsender, h⟩ := applyProposals_eq_ok h
  obtain rfl := Except.ok.inj (hall.symm.trans hall')
  simp only [applyGroupedProposals] at h
  split_ifs at h with hexternal
  · have hnone := applyExternalProposals_leaves h
    simp only [proposedLeaves, List.append_eq_nil_iff, List.map_eq_nil_iff] at hnone
    obtain ⟨_, hinit, -⟩ := bind_eq_ok.mp h
    have hinit := throwIfDefined_eq_ok.mp hinit
    unfold validateExternalInit at hinit
    split_ifs at hinit with _ hremove
    have hlen : (groupProposals allProposals).remove.length ≤ 1 := by omega
    refine ⟨?_, fun hmember => ?_⟩
    · rw [proposedChanges, hnone.1, List.map_nil, List.nil_append]
      rcases hr : (groupProposals allProposals).remove with _ | ⟨r, _ | ⟨r', rest⟩⟩
      · simp
      · simp
      · simp [hr] at hlen
    · unfold validateExternalInitSenderType at hsender
      rw [hmember] at hsender
      simp [hexternal] at hsender
  · split at h
    · rename_i reinit rest hreinit
      rw [(applyReinit_changes hreinit h).1]
      simp
    · obtain ⟨tree, addedLeafNodes, _, _, hproposals, htree, rfl⟩ := applyMemberProposals_eq_ok h
      have hvalid := validateProposals_eq_ok hproposals
      have hsenders := applyTreeMutations_senders htree
      refine ⟨proposedChanges_nodup hvalid.distinct hsenders, fun _ i hi hmem => ?_⟩
      simp only [proposedChanges, List.map_append, List.map_map, List.mem_append, List.mem_map,
        Function.comp_apply, LeafChange.target] at hmem
      rcases hmem with ⟨u, hu, heq⟩ | ⟨r, hr, heq⟩
      · obtain ⟨k, hk⟩ := hsenders u hu
        rw [hk, Option.getD_some] at heq
        exact hvalid.ownUpdate u hu k hk (by rw [hi, heq])
      · exact hvalid.ownRemove r hr (by rw [hi, heq])

/-- A member's message is read with the leaf of its sender. -/
theorem readContent_sender {cs : CiphersuiteImpl} {state : ClientState cs.signature}
    {message : MlsHandshakeMessage} {content : AuthenticatedContent} {i : ℕ}
    (h : readContent cs state message = .ok content) (hsender : content.content.sender = .member i) :
    ∃ leaf, leafSlots state.ratchetTree i = some (.leaf leaf) := by
  suffices hleaf : leafAt state.ratchetTree i ≠ none by
    obtain ⟨leaf, hleaf⟩ := Option.ne_none_iff_exists'.mp hleaf
    exact ⟨leaf, leafAt_eq_some.mp hleaf⟩
  intro hnone
  cases message with
  | mls_public_message pm =>
    unfold readContent unprotectPublicMessage at h
    dsimp only at h
    split at h
    · cases h
    · obtain ⟨isMember, -, h⟩ := bind_eq_ok.mp h
      split at h
      · cases h
      · obtain ⟨key, hkey, h⟩ := bind_eq_ok.mp h
        obtain ⟨signatureValid, -, h⟩ := bind_eq_ok.mp h
        split at h
        · cases h
        · obtain rfl := Except.ok.inj h
          unfold findSignaturePublicKey at hkey
          rw [hsender] at hkey
          simp only [getSignaturePublicKeyFromLeafIndex, hnone] at hkey
          cases hkey
  | mls_private_message pm =>
    obtain ⟨read, hread, h⟩ := bind_eq_ok.mp h
    obtain rfl := Except.ok.inj h
    obtain ⟨senderData, -, hread⟩ := bind_eq_ok.mp hread
    cases senderData with
    | none => cases hread
    | some senderData =>
      obtain ⟨_, hvalid, hread⟩ := bind_eq_ok.mp hread
      obtain ⟨ratcheted, -, hread⟩ := bind_eq_ok.mp hread
      obtain ⟨aad, -, hread⟩ := bind_eq_ok.mp hread
      obtain ⟨decrypted, -, hread⟩ := bind_eq_ok.mp hread
      obtain ⟨pmc, -, hread⟩ := bind_eq_ok.mp hread
      split at hread
      · cases hread
      · obtain ⟨key, -, hread⟩ := bind_eq_ok.mp hread
        obtain ⟨signatureValid, -, hread⟩ := bind_eq_ok.mp hread
        split at hread
        · cases hread
        · obtain rfl := Except.ok.inj hread
          obtain rfl := Sender.member.inj hsender
          have hnot := throwIfDefined_eq_ok.mp hvalid
          simp [validateSenderData, hnone] at hnot

end WebcryptoMls
