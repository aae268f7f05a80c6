import WebcryptoMls.WelcomePaths

/-!
# Held keys

A member holds the private keys of its leaf and of the nodes above it that do not list it as
unmerged. What a commit makes of them is followed node by node: its proposals blank nodes above
the leaf or leave their keys as they are, and its path writes all nodes from the common ancestor
up. Keys of nodes that have become blank may be left over until they are pruned.
-/
namespace WebcryptoMls
open InOrder (index size Below)
open Records

/-! ## Keys node by node -/

/-- The key of a node, and none where the node lists the leaf as unmerged. -/
def HeldAt (hpke : Hpke) (l : ℕ) (node : Node) (key : Option Bytes) : Prop :=
  if l ∈ node.unmergedLeaves then key = none
  else ∃ privateKey, key = some privateKey ∧ PrivateKeyOf hpke privateKey (getHpkePublicKey node)

/-- All keys are of places over the leaf. -/
def OnPath (l : ℕ) (keys : Record ℤ Bytes) : Prop :=
  ∀ n privateKey, keys.get n = some privateKey → ∃ k, n = coord k (l / 2 ^ k)

/-- As `HoldsKeys`, but for the keys of places that are blank. -/
structure KeepsKeys (hpke : Hpke) (t : RatchetTree) (l : ℕ) (keys : Record ℤ Bytes) : Prop where
  place : OnPath l keys
  held : ∀ k node, slot t k (l / 2 ^ k) = some node →
    HeldAt hpke l node (keys.get (coord k (l / 2 ^ k)))

/-- The nodes over a leaf were there before, with the same keys, and list it as before. -/
def PathKept (l : ℕ) (t t' : RatchetTree) : Prop :=
  ∀ k node', slot t' k (l / 2 ^ k) = some node' → ∃ node, slot t k (l / 2 ^ k) = some node ∧
    getHpkePublicKey node' = getHpkePublicKey node ∧
    (l ∈ node'.unmergedLeaves ↔ l ∈ node.unmergedLeaves)

section
variable {hpke : Hpke} {t t' t₁ : RatchetTree} {l i : ℕ} {keys : Record ℤ Bytes} {node : Node}

theorem heldAt_of_mem {key : Option Bytes} (h : l ∈ node.unmergedLeaves) :
    HeldAt hpke l node key ↔ key = none := by
  rw [HeldAt, if_pos h]

theorem heldAt_of_notMem {key : Option Bytes} (h : l ∉ node.unmergedLeaves) :
    HeldAt hpke l node key ↔
      ∃ privateKey, key = some privateKey ∧ PrivateKeyOf hpke privateKey (getHpkePublicKey node) := by
  rw [HeldAt, if_neg h]

theorem HoldsKeys.keeps (h : HoldsKeys hpke t l keys) : KeepsKeys hpke t l keys where
  place n privateKey hn := by
    obtain ⟨k, -, hk, -⟩ := h.only n privateKey hn
    exact ⟨k, hk⟩
  held k node hnode := by
    have hkey : ∀ privateKey, keys.get (coord k (l / 2 ^ k)) = some privateKey →
        l ∉ node.unmergedLeaves ∧ PrivateKeyOf hpke privateKey (getHpkePublicKey node) := by
      intro privateKey hget
      obtain ⟨k', node', hplace, hnode', hnot, hof⟩ := h.only _ privateKey hget
      obtain ⟨rfl, -⟩ := coord_inj.mp hplace
      obtain rfl := Option.some.inj (hnode.symm.trans hnode')
      exact ⟨hnot, hof⟩
    by_cases hmem : l ∈ node.unmergedLeaves
    · rw [heldAt_of_mem hmem, Option.eq_none_iff_forall_ne_some]
      exact fun privateKey hget => (hkey privateKey hget).1 hmem
    · rw [heldAt_of_notMem hmem]
      obtain ⟨privateKey, hget⟩ := Option.ne_none_iff_exists'.mp (h.all k node hnode hmem)
      exact ⟨privateKey, hget, (hkey privateKey hget).2⟩

/-- Without the keys of blank places, exactly the keys to be held are left. -/
theorem KeepsKeys.pruned (h : KeepsKeys hpke t l keys) : HoldsKeys hpke t l
    (keys.filterKeys fun nodeIndex => (nodeAt t nodeIndex).isSome) where
  all k node hnode hnot := by
    obtain ⟨privateKey, hget, -⟩ := (heldAt_of_notMem hnot).mp (h.held k node hnode)
    rw [Record.get_filterKeys, nodeAt_coord, hnode, Option.isSome_some, if_pos rfl, hget]
    exact Option.some_ne_none _
  only n privateKey hn := by
    rw [Record.get_filterKeys] at hn
    split_ifs at hn with hsome
    obtain ⟨k, rfl⟩ := h.place n privateKey hn
    rw [nodeAt_coord] at hsome
    obtain ⟨node, hnode⟩ := Option.isSome_iff_exists.mp hsome
    have hheld := h.held k node hnode
    rw [hn] at hheld
    by_cases hmem : l ∈ node.unmergedLeaves
    · rw [heldAt_of_mem hmem] at hheld
      cases hheld
    · obtain ⟨privateKey', heq, hof⟩ := (heldAt_of_notMem hmem).mp hheld
      obtain rfl := Option.some.inj heq
      exact ⟨k, node, rfl, hnode, hmem, hof⟩

theorem PathKept.refl (l : ℕ) (t : RatchetTree) : PathKept l t t :=
  fun _ node h => ⟨node, h, rfl, Iff.rfl⟩

theorem PathKept.trans (h : PathKept l t t₁) (h' : PathKept l t₁ t') : PathKept l t t' := by
  intro k node' hnode'
  obtain ⟨node₁, hnode₁, hkey₁, hmem₁⟩ := h' k node' hnode'
  obtain ⟨node, hnode, hkey, hmem⟩ := h k node₁ hnode₁
  exact ⟨node, hnode, hkey₁.trans hkey, hmem₁.trans hmem⟩

theorem KeepsKeys.kept (h : KeepsKeys hpke t l keys) (hpath : PathKept l t t') :
    KeepsKeys hpke t' l keys where
  place := h.place
  held k node' hnode' := by
    obtain ⟨node, hnode, hkey, hmem⟩ := hpath k node' hnode'
    have hheld := h.held k node hnode
    unfold HeldAt at hheld ⊢
    simpa only [hmem, hkey] using hheld

theorem OnPath.set (h : OnPath l keys) (privateKey : Bytes) :
    OnPath l (keys.set (coord 0 l) privateKey) := by
  intro n key hn
  rw [Record.get_set] at hn
  split_ifs at hn with heq
  · exact ⟨0, by rw [heq, pow_zero, Nat.div_one]⟩
  · exact h n key hn

/-- Keys that are merged in come before those that were held. -/
theorem KeepsKeys.merged {new : Record ℤ Bytes} (hplace : OnPath l keys)
    (hnew : ∀ n privateKey, new.get n = some privateKey → ∃ k node, n = coord k (l / 2 ^ k) ∧
      slot t k (l / 2 ^ k) = some node ∧ l ∉ node.unmergedLeaves ∧
      PrivateKeyOf hpke privateKey (getHpkePublicKey node))
    (hrest : ∀ k node, slot t k (l / 2 ^ k) = some node → new.get (coord k (l / 2 ^ k)) = none →
      HeldAt hpke l node (keys.get (coord k (l / 2 ^ k)))) :
    KeepsKeys hpke t l (keys.setAll new.entries) where
  place n privateKey hn := by
    rw [Record.get_setAll, Option.or_eq_some_iff] at hn
    rcases hn with hn | ⟨-, hn⟩
    · obtain ⟨k, -, hk, -⟩ := hnew n privateKey hn
      exact ⟨k, hk⟩
    · exact hplace n privateKey hn
  held k node hnode := by
    rw [Record.get_setAll]
    cases hget : new.get (coord k (l / 2 ^ k)) with
    | none => simpa using hrest k node hnode hget
    | some privateKey =>
      obtain ⟨k', node', hk, hnode', hnot, hof⟩ := hnew _ privateKey hget
      obtain ⟨rfl, -⟩ := coord_inj.mp hk
      obtain rfl := Option.some.inj (hnode.symm.trans hnode')
      rw [heldAt_of_notMem hnot]
      exact ⟨privateKey, rfl, hof⟩

/-! ## Updates and Removes -/

section
variable {changes : List LeafChange}

/-- Changes of other leaves blank nodes over the leaf, and leave the rest of them alone. -/
theorem Changed.pathKept (h : Changed t t' changes) (hnot : l ∉ changes.map LeafChange.target) :
    PathKept l t t' := by
  intro k node' hnode'
  by_cases habove : ∃ c ∈ changes, c.target / 2 ^ k = l / 2 ^ k
  · obtain ⟨c, hc, heq⟩ := habove
    cases k with
    | zero =>
      rw [pow_zero, Nat.div_one, Nat.div_one] at heq
      exact absurd (List.mem_map.mpr ⟨c, hc, heq⟩) hnot
    | succ k =>
      rw [← heq, h.path c hc k] at hnode'
      cases hnode'
  · push Not at habove
    rw [h.off k _ habove] at hnode'
    exact ⟨node', hnode', rfl, Iff.rfl⟩

/-- Over an updated leaf, its own key is all there is to hold. -/
theorem Changed.updated (h : Changed t t' changes) {leafNode : LeafNode}
    (hmem : .update leafNode l ∈ changes) (hplace : OnPath l keys) {privateKey : Bytes}
    (hkey : PrivateKeyOf hpke privateKey leafNode.hpkePublicKey) :
    KeepsKeys hpke t' l (keys.set (coord 0 l) privateKey) where
  place := hplace.set privateKey
  held k node hnode := by
    cases k with
    | zero =>
      have hleaf := h.leaf _ hmem
      rw [pow_zero, Nat.div_one] at hnode ⊢
      obtain rfl := Option.some.inj (hnode.symm.trans hleaf)
      rw [heldAt_of_notMem List.not_mem_nil, Record.get_set_self]
      exact ⟨privateKey, rfl, hkey⟩
    | succ k =>
      have hblank := h.path _ hmem k
      rw [LeafChange.target, hnode] at hblank
      cases hblank

end

/-! ## Adds -/

theorem mem_addUnmerged (hne : l ≠ i) :
    l ∈ (node.addUnmerged i).unmergedLeaves ↔ l ∈ node.unmergedLeaves := by
  cases node with
  | leaf leaf => exact Iff.rfl
  | parent p => simp [Node.addUnmerged, Node.unmergedLeaves, hne]

theorem getHpkePublicKey_addUnmerged : getHpkePublicKey (node.addUnmerged i) = getHpkePublicKey node := by
  cases node <;> rfl

/-- Where another leaf is added, it becomes unmerged at the nodes the two have in common. -/
theorem Added.pathKept {leaf : LeafNode} (h : Added t t' i leaf) (hne : l ≠ i) : PathKept l t t' := by
  intro k node' hnode'
  rw [h.slot, if_neg] at hnode'
  · split_ifs at hnode'
    · obtain ⟨node, hnode, rfl⟩ := Option.map_eq_some_iff.mp hnode'
      exact ⟨node, hnode, getHpkePublicKey_addUnmerged, mem_addUnmerged hne⟩
    · exact ⟨node', hnode', rfl, Iff.rfl⟩
  · rintro ⟨rfl, hplace⟩
    rw [pow_zero, Nat.div_one] at hplace
    exact hne hplace

/-- What Adds make of a tree: they leave its members alone, and write no blank parent. -/
structure LeavesAdded (start : RatchetTree) (acc : RatchetTree × List (ℕ × KeyPackage)) : Prop where
  tree : Reachable acc.1
  others : ∀ v, slot start 0 v ≠ none → PathKept v start acc.1
  kept : ∀ v, slot start 0 v ≠ none → slot acc.1 0 v = slot start 0 v
  blank : ∀ k j, slot start (k + 1) j = none → slot acc.1 (k + 1) j = none
  added : ∀ v, slot acc.1 0 v ≠ none → slot start 0 v ≠ none ∨ v ∈ acc.2.map Prod.fst

theorem leavesAdded_nil (h : Reachable t) : LeavesAdded t (t, []) where
  tree := h
  others v _ := .refl v t
  kept _ _ := rfl
  blank _ _ hnone := hnone
  added _ hv := .inl hv

theorem LeavesAdded.applyAdd {cs : CiphersuiteImpl} {m : TreeMutations} {start : RatchetTree}
    {acc acc' : RatchetTree × List (ℕ × KeyPackage)} {add : Sent KeyPackage} (h : LeavesAdded start acc)
    (hadd : applyAdd cs m acc add = .ok acc') : LeavesAdded start acc' := by
  obtain ⟨htree, i, hadded, hlisted⟩ := applyAdd_eq_ok h.tree hadd
  have hne : ∀ v, slot start 0 v ≠ none → v ≠ i := by
    rintro v hv rfl
    rw [← h.kept v hv, hadded.blank] at hv
    exact hv rfl
  refine ⟨htree, fun v hv => (h.others v hv).trans (hadded.pathKept (hne v hv)), fun v hv => ?_,
    fun k j hnone => ?_, fun v hv => ?_⟩
  · rw [hadded.leaf, if_neg (hne v hv), h.kept v hv]
  · rw [Option.eq_none_iff_forall_ne_some]
    intro node hnode
    obtain ⟨node₀, hnode₀⟩ := hadded.parent_ne_none hnode
    rw [h.blank k j hnone] at hnode₀
    cases hnode₀
  · rw [hlisted, List.map_append, List.mem_append]
    rw [hadded.leaf] at hv
    split_ifs at hv with heq
    · exact .inr (.inr (by simp [heq]))
    · exact (h.added v hv).imp_right .inl

end

/-! ## The proposals of a commit -/

section
variable {cs : CiphersuiteImpl} {state : ClientState cs.signature} {proposals : List ProposalOrRef}
  {allProposals : List ProposalWithSender} {committerLeafIndex : Option ℕ} {pskSearch : PskIndex}
  {sentByClient : Bool} {newMemberLeafNode : Option LeafNode} {senderType : SenderTypeName}
  {currentTime : ℤ} {result : ApplyProposalsResult} {l : ℕ}

/-- A joiner's commit changes leaves by its Remove alone. -/
theorem applyExternalProposals_changes {grouped : Proposals}
    (h : applyExternalProposals cs state allProposals grouped pskSearch newMemberLeafNode = .ok result) :
    applyChanges state.ratchetTree (proposedChanges grouped) = .ok result.tree := by
  have hnone := applyExternalProposals_leaves h
  simp only [proposedLeaves, List.append_eq_nil_iff, List.map_eq_nil_iff] at hnone
  rw [proposedChanges, hnone.1, List.map_nil, List.nil_append, applyChanges, List.foldlM_map]
  exact (applyExternalProposals_eq_ok h).1

/-- Whatever kind of commit they are of, proposals first change leaves and then add some. -/
theorem applyProposals_leaves (ht : Reachable state.ratchetTree)
    (hall : resolveProposals state committerLeafIndex senderType proposals = .ok allProposals)
    (h : applyProposals cs state proposals committerLeafIndex pskSearch sentByClient newMemberLeafNode
      senderType currentTime = .ok result) :
    ∃ start, Changed state.ratchetTree start (proposedChanges (groupProposals allProposals)) ∧
      LeavesAdded start (result.tree, addedLeafNodes result.additionalResult) := by
  have hnodup := (applyProposals_targets hall h).1
  obtain ⟨hinv, d, hg⟩ := ht.invariant
  have hchanged {start : RatchetTree} (hchanges : applyChanges state.ratchetTree
      (proposedChanges (groupProposals allProposals)) = .ok start) :
      Changed state.ratchetTree start (proposedChanges (groupProposals allProposals)) :=
    (applyChanges_changed hinv.isCovered hg hnodup hchanges).1
  obtain ⟨_, hall', -, h⟩ := applyProposals_eq_ok h
  obtain rfl := Except.ok.inj (hall.symm.trans hall')
  simp only [applyGroupedProposals] at h
  split_ifs at h with hexternal
  · have hchanges := applyExternalProposals_changes h
    obtain ⟨-, _, _, _, hdata⟩ := applyExternalProposals_eq_ok h
    exact ⟨result.tree, hchanged hchanges, by
      rw [hdata]; exact leavesAdded_nil (ht.applyChanges hchanges)⟩
  · split at h
    · rename_i reinit rest hreinit
      obtain ⟨htree, hdata⟩ := applyReinit_eq_ok h
      refine ⟨result.tree, hchanged ?_, by rw [hdata, htree]; exact leavesAdded_nil ht⟩
      rw [(applyReinit_changes hreinit h).1, htree]
      rfl
    · obtain ⟨tree, addedLeafNodes, _, _, -, hmutated, rfl⟩ := applyMemberProposals_eq_ok h
      obtain ⟨start, hchanges, hadds⟩ := applyTreeMutations_changes hmutated
      exact ⟨start, hchanged hchanges, foldlM_inv (P := LeavesAdded start)
        (leavesAdded_nil (ht.applyChanges hchanges)) (fun _ _ _ _ hb hc => hb.applyAdd hc) hadds⟩

/-- Every Update that is applied has a sender. -/
theorem applyProposals_senders
    (hall : resolveProposals state committerLeafIndex senderType proposals = .ok allProposals)
    (h : applyProposals cs state proposals committerLeafIndex pskSearch sentByClient newMemberLeafNode
      senderType currentTime = .ok result) {u : Sent LeafNodeUpdate}
    (hu : u ∈ (groupProposals allProposals).update) : ∃ i, u.senderLeafIndex = some i := by
  obtain ⟨_, hall', -, h⟩ := applyProposals_eq_ok h
  obtain rfl := Except.ok.inj (hall.symm.trans hall')
  simp only [applyGroupedProposals] at h
  split_ifs at h with hexternal
  · have hnone := applyExternalProposals_leaves h
    simp only [proposedLeaves, List.append_eq_nil_iff, List.map_eq_nil_iff] at hnone
    rw [hnone.1] at hu
    cases hu
  · split at h
    · rename_i reinit rest hreinit
      have hnone := (applyReinit_changes hreinit h).1
      rw [proposedChanges, List.append_eq_nil_iff, List.map_eq_nil_iff] at hnone
      rw [hnone.1] at hu
      cases hu
    · obtain ⟨tree, addedLeafNodes, _, _, -, hmutated, rfl⟩ := applyMemberProposals_eq_ok h
      exact applyTreeMutations_senders hmutated u hu

/-- What a commit's proposals do to the place of a leaf and to the nodes over it. -/
inductive LeafAfter (state : ClientState cs.signature) (grouped : Proposals)
    (result : ApplyProposalsResult) (l : ℕ) : Prop
  | kept (untouched : l ∉ (proposedChanges grouped).map LeafChange.target)
      (path : PathKept l state.ratchetTree result.tree) (leaf : slot result.tree 0 l ≠ none)
  | updated (update : Sent LeafNodeUpdate) (mem : update ∈ grouped.update)
      (sender : update.senderLeafIndex = some l)
      (path : ∃ start, PathKept l start result.tree ∧
        Changed state.ratchetTree start (proposedChanges grouped)) (leaf : slot result.tree 0 l ≠ none)
  | removed (mem : .remove l ∈ proposedChanges grouped)
      (path : ∀ k, slot result.tree (k + 1) (l / 2 ^ (k + 1)) = none)
      (refilled : slot result.tree 0 l ≠ none → l ∈ (addedLeafNodes result.additionalResult).map Prod.fst)

theorem applyProposals_leafAfter (ht : Reachable state.ratchetTree)
    (hl : slot state.ratchetTree 0 l ≠ none)
    (hall : resolveProposals state committerLeafIndex senderType proposals = .ok allProposals)
    (h : applyProposals cs state proposals committerLeafIndex pskSearch sentByClient newMemberLeafNode
      senderType currentTime = .ok result) :
    LeafAfter state (groupProposals allProposals) result l := by
  obtain ⟨start, hchanged, hadded⟩ := applyProposals_leaves ht hall h
  by_cases htarget : l ∈ (proposedChanges (groupProposals allProposals)).map LeafChange.target
  · obtain ⟨c, hc, rfl⟩ := List.mem_map.mp htarget
    have hleaf := hchanged.leaf c hc
    rcases List.mem_append.mp hc with hupdate | hremove
    · obtain ⟨u, hu, rfl⟩ := List.mem_map.mp hupdate
      obtain ⟨i, hi⟩ := applyProposals_senders hall h hu
      rw [hi] at hleaf hl ⊢
      change slot start 0 i = _ at hleaf
      have hne : slot start 0 i ≠ none := by
        rw [hleaf]
        exact Option.some_ne_none _
      exact .updated u hu hi ⟨start, hadded.others i hne, hchanged⟩ (hadded.kept i hne ▸ hne)
    · obtain ⟨r, hr, rfl⟩ := List.mem_map.mp hremove
      refine .removed hc (fun k => hadded.blank k _ (hchanged.path _ hc k)) fun hne => ?_
      exact (hadded.added _ hne).resolve_left fun hstart => hstart hleaf
  · have hleaf : slot start 0 l = slot state.ratchetTree 0 l := by
      refine hchanged.off 0 l fun c hc heq => htarget (List.mem_map.mpr ⟨c, hc, ?_⟩)
      rwa [pow_zero, Nat.div_one] at heq
    have hne : slot start 0 l ≠ none := hleaf ▸ hl
    exact .kept htarget ((hchanged.pathKept htarget).trans (hadded.others l hne))
      (hadded.kept l hne ▸ hne)

end

/-! ## Updates of the member itself -/

/-- The key of a pending Update. -/
def pendingUpdateKey {sig : Signature} (state : ClientState sig) (ref : Bytes) :
    Option (PendingUpdateKey sig) :=
  state.pendingUpdateKeys.bind fun keys => keys.get ref

/-- What is pending under the reference of a pending key is an Update of the member with the
public half, and the member's Updates are all pending with their keys. -/
structure PendingUpdates {sig : Signature} (hpke : Hpke) (state : ClientState sig) : Prop where
  key : ∀ ref p key, state.unappliedProposals.get ref = some p →
    pendingUpdateKey state ref = some key → ∃ leafNode, p.proposal = .update leafNode ∧
      p.senderLeafIndex = some state.privatePath.leafIndex ∧
      PrivateKeyOf hpke key.hpkePrivateKey leafNode.leaf.hpkePublicKey
  update : ∀ ref p leafNode, state.unappliedProposals.get ref = some p → p.proposal = .update leafNode →
    p.senderLeafIndex = some state.privatePath.leafIndex → pendingUpdateKey state ref ≠ none

theorem resolveProposal_reference {unappliedProposals : UnappliedProposals}
    {committerLeafIndex : Option ℕ} {senderType : SenderTypeName} {ref : Bytes} {p : ProposalWithSender}
    (h : resolveProposal unappliedProposals committerLeafIndex senderType (.reference ref) = .ok p) :
    unappliedProposals.get ref = some p := by
  simp only [resolveProposal, findUnappliedProposal] at h
  split at h
  · rename_i found hfound
    rw [hfound, Except.ok.inj h]
  · cases h

theorem mem_update_groupProposals {allProposals : List ProposalWithSender} {u : Sent LeafNodeUpdate} :
    u ∈ (groupProposals allProposals).update ↔ ∃ p ∈ allProposals,
      p.proposal = .update u.proposal ∧ p.senderLeafIndex = u.senderLeafIndex := by
  suffices hall : ∀ acc : Proposals, u ∈ (allProposals.foldl groupProposal acc).update ↔
      u ∈ acc.update ∨ ∃ p ∈ allProposals,
        p.proposal = .update u.proposal ∧ p.senderLeafIndex = u.senderLeafIndex by
    simpa [groupProposals, emptyProposals] using hall emptyProposals
  induction allProposals with
  | nil => simp
  | cons p ps ih =>
    intro acc
    rw [List.foldl_cons, ih]
    obtain ⟨proposal, senderLeafIndex, senderType⟩ := p
    cases proposal with
    | update leafNode =>
      have hsent : u = ⟨senderLeafIndex, leafNode⟩ ↔
          leafNode = u.proposal ∧ senderLeafIndex = u.senderLeafIndex := by
        obtain ⟨sender, updated⟩ := u
        simp [eq_comm, and_comm]
      simp [groupProposal, or_assoc, hsent]
    | _ => simp [groupProposal]

section
variable {cs : CiphersuiteImpl} {state : ClientState cs.signature} {proposals : List ProposalOrRef}
  {allProposals : List ProposalWithSender} {committerLeafIndex : Option ℕ} {pskSearch : PskIndex}
  {sentByClient : Bool} {newMemberLeafNode : Option LeafNode} {senderType : SenderTypeName}
  {currentTime : ℤ} {result : ApplyProposalsResult} {hpke : Hpke}

/-- A key that is applied is that of an Update among the commit's proposals. -/
theorem PendingUpdates.applied (h : PendingUpdates hpke state)
    (hall : resolveProposals state committerLeafIndex senderType proposals = .ok allProposals)
    {key : PendingUpdateKey cs.signature}
    (hkey : appliedPendingUpdateKey state.pendingUpdateKeys proposals = some key) :
    ∃ u ∈ (groupProposals allProposals).update, u.senderLeafIndex = some state.privatePath.leafIndex ∧
      PrivateKeyOf hpke key.hpkePrivateKey u.proposal.leaf.hpkePublicKey := by
  obtain ⟨keys, hkeys, hfind⟩ := Option.bind_eq_some_iff.mp hkey
  obtain ⟨p, hp, hget⟩ := List.exists_of_findSome?_eq_some hfind
  cases p with
  | proposal proposal => cases hget
  | reference ref =>
    obtain ⟨resolved, hmem, hresolve⟩ := exists_mem_of_mapM hall _ hp
    have hpending := resolveProposal_reference hresolve
    obtain ⟨leafNode, hupdate, hsender, hof⟩ := h.key ref resolved key hpending (by
      rw [pendingUpdateKey, hkeys]; exact hget)
    exact ⟨⟨resolved.senderLeafIndex, leafNode⟩,
      mem_update_groupProposals.mpr ⟨resolved, hmem, hupdate, rfl⟩, hsender, hof⟩

/-- Where none is applied, an Update in the member's name is the committer's own. -/
theorem PendingUpdates.notApplied (h : PendingUpdates hpke state)
    (hall : resolveProposals state committerLeafIndex senderType proposals = .ok allProposals)
    (hnone : appliedPendingUpdateKey state.pendingUpdateKeys proposals = none)
    {u : Sent LeafNodeUpdate} (hu : u ∈ (groupProposals allProposals).update)
    (hsender : u.senderLeafIndex = some state.privatePath.leafIndex) :
    committerLeafIndex = some state.privatePath.leafIndex := by
  obtain ⟨resolved, hmem, hupdate, heq⟩ := mem_update_groupProposals.mp hu
  obtain ⟨p, hp, hresolve⟩ := mem_of_mapM hall _ hmem
  rw [hsender] at heq
  cases p with
  | proposal proposal =>
    rw [← Except.ok.inj hresolve] at heq
    exact heq
  | reference ref =>
    have hpending := resolveProposal_reference hresolve
    have hkey := h.update ref resolved u.proposal hpending hupdate heq
    refine absurd ?_ hkey
    rw [pendingUpdateKey]
    cases hkeys : state.pendingUpdateKeys with
    | none => rfl
    | some keys =>
      rw [appliedPendingUpdateKey, hkeys, Option.bind_some, List.findSome?_eq_none_iff] at hnone
      exact hnone _ hp

/-- The keys of a member whose place no Remove names, with the key of its own Update where it is
applied. -/
theorem ownPrivatePath_keeps (ht : Reachable state.ratchetTree)
    (hl : slot state.ratchetTree 0 state.privatePath.leafIndex ≠ none)
    (hkeys : HoldsKeys hpke state.ratchetTree state.privatePath.leafIndex state.privatePath.privateKeys)
    (hpending : PendingUpdates hpke state)
    (hall : resolveProposals state committerLeafIndex senderType proposals = .ok allProposals)
    (h : applyProposals cs state proposals committerLeafIndex pskSearch sentByClient newMemberLeafNode
      senderType currentTime = .ok result)
    (hmember : ∀ i, committerLeafIndex = some i → senderType = .member)
    (hnot : .remove state.privatePath.leafIndex ∉ proposedChanges (groupProposals allProposals)) :
    slot result.tree 0 state.privatePath.leafIndex ≠ none ∧ KeepsKeys hpke result.tree
      state.privatePath.leafIndex (ownPrivatePath state proposals).privateKeys := by
  have htarget {u : Sent LeafNodeUpdate} (hu : u ∈ (groupProposals allProposals).update)
      (hsender : u.senderLeafIndex = some state.privatePath.leafIndex) :
      .update u.proposal.leaf state.privatePath.leafIndex ∈
        proposedChanges (groupProposals allProposals) := by
    refine List.mem_append_left _ (List.mem_map.mpr ⟨u, hu, ?_⟩)
    rw [hsender]
    rfl
  unfold ownPrivatePath
  cases applyProposals_leafAfter ht hl hall h with
  | kept untouched path leaf =>
    cases happlied : appliedPendingUpdateKey state.pendingUpdateKeys proposals with
    | none => exact ⟨leaf, hkeys.keeps.kept path⟩
    | some key =>
      obtain ⟨u, hu, hsender, -⟩ := hpending.applied hall happlied
      exact absurd (List.mem_map_of_mem (htarget hu hsender)) untouched
  | updated u hu hsender path leaf =>
    obtain ⟨start, hadds, hchanged⟩ := path
    cases happlied : appliedPendingUpdateKey state.pendingUpdateKeys proposals with
    | none =>
      have hcommitter := hpending.notApplied hall happlied hu hsender
      exact absurd (List.mem_map_of_mem (htarget hu hsender))
        ((applyProposals_targets hall h).2 (hmember _ hcommitter) _ hcommitter)
    | some key =>
      obtain ⟨u', hu', hsender', hof⟩ := hpending.applied hall happlied
      refine ⟨leaf, ?_⟩
      simp only [updateLeafKey, leafToNodeIndex_eq]
      exact (hchanged.updated (htarget hu' hsender') hkeys.keeps.place hof).kept hadds
  | removed mem => exact absurd mem hnot

end

end WebcryptoMls
