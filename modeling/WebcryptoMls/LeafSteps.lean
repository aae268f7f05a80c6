import WebcryptoMls.LeafSummaries
import WebcryptoMls.PathAgreement

/-!
# Leaf steps

What the places of a tree hold once a commit is applied. Its proposals place one leaf
after the other, each behind the same checks against the tree it is placed in, or leave
leaves out; its path places the committer's leaf and writes the nodes above it.
-/
namespace WebcryptoMls

/-- The slot `n` holds the node. -/
def NodeAt (tree : RatchetTree) (n : ℕ) (node : Node) : Prop := tree[n]? = some (some node)

theorem NodeAt.mem {t : RatchetTree} {n : ℕ} {node : Node} (h : NodeAt t n node) : some node ∈ t :=
  List.mem_of_getElem? h

/-- A parent node may have lost its hash and gained unmerged leaves. -/
def SameKey : Node → Node → Prop
  | .leaf a, .leaf b => a = b
  | .parent a, .parent b => a.hpkePublicKey = b.hpkePublicKey
  | _, _ => False

theorem SameKey.refl (node : Node) : SameKey node node := by
  cases node <;> simp [SameKey]

theorem SameKey.trans {a b c : Node} (h : SameKey a b) (h' : SameKey b c) : SameKey a c := by
  cases a <;> cases b <;> cases c <;> simp_all [SameKey]

@[simp] theorem sameKey_leaf {node : Node} {leaf : LeafNode} :
    SameKey node (.leaf leaf) ↔ node = .leaf leaf := by
  cases node <;> simp [SameKey]

theorem SameKey.key {a b : Node} (h : SameKey a b) : getHpkePublicKey a = getHpkePublicKey b := by
  cases a <;> cases b <;> simp_all [SameKey, getHpkePublicKey]

/-- A node of the later tree was in its place before, with the same keys. -/
def Kept (t t' : RatchetTree) : Prop :=
  ∀ n node, NodeAt t' n node → ∃ node', NodeAt t n node' ∧ SameKey node' node

/-- As `Kept`, but for the leaf that was placed at `m`. -/
def Placed (t t' : RatchetTree) (m : ℕ) (leaf : LeafNode) : Prop :=
  ∀ n node, NodeAt t' n node → n = m ∧ node = .leaf leaf ∨
    n ≠ m ∧ ∃ node', NodeAt t n node' ∧ SameKey node' node

section
variable {t t' t₁ : RatchetTree} {m n : ℕ} {leaf : LeafNode} {node : Node}

theorem Kept.refl (t : RatchetTree) : Kept t t := fun _ node h => ⟨node, h, .refl node⟩

theorem Kept.trans (h : Kept t t₁) (h' : Kept t₁ t') : Kept t t' := by
  intro n node hn
  obtain ⟨node₁, hn₁, hkey₁⟩ := h' n node hn
  obtain ⟨node₂, hn₂, hkey₂⟩ := h n node₁ hn₁
  exact ⟨node₂, hn₂, hkey₂.trans hkey₁⟩

theorem kept_of_holds (h : ∀ n node, NodeAt t' n node → NodeAt t n node) : Kept t t' :=
  fun n node hn => ⟨node, h n node hn, .refl node⟩

theorem Kept.placed (h : Kept t t₁) (h' : Placed t₁ t' m leaf) : Placed t t' m leaf := by
  intro n node hn
  rcases h' n node hn with hplaced | ⟨hne, node₁, hn₁, hkey₁⟩
  · exact .inl hplaced
  · obtain ⟨node₂, hn₂, hkey₂⟩ := h n node₁ hn₁
    exact .inr ⟨hne, node₂, hn₂, hkey₂.trans hkey₁⟩

theorem Placed.holdsLeaf (h : Placed t t' m leaf) {leaf' : LeafNode} (hn : HoldsLeaf t' n leaf') :
    n = m ∧ leaf' = leaf ∨ n ≠ m ∧ HoldsLeaf t n leaf' := by
  rcases h n (.leaf leaf') hn with ⟨rfl, heq⟩ | ⟨hne, node', hn', hkey⟩
  · exact .inl ⟨rfl, Node.leaf.inj heq⟩
  · rw [sameKey_leaf] at hkey
    subst hkey
    exact .inr ⟨hne, hn'⟩

theorem Kept.holdsLeaf (h : Kept t t') {leaf' : LeafNode} (hn : HoldsLeaf t' n leaf') :
    HoldsLeaf t n leaf' := by
  obtain ⟨node', hn', hkey⟩ := h n (.leaf leaf') hn
  rw [sameKey_leaf] at hkey
  subst hkey
  exact hn'

/-! ## The tree operations -/

theorem holds_setNode {i : ℤ} {v : Option Node} (h : NodeAt (setNode t i v) n node) :
    (n : ℤ) = i ∧ v = some node ∨ (n : ℤ) ≠ i ∧ NodeAt t n node := by
  unfold NodeAt setNode at *
  split_ifs at h with hneg
  · exact .inr ⟨by omega, h⟩
  · rw [List.getElem?_set] at h
    split_ifs at h with hn hlt
    · exact .inl ⟨by omega, Option.some.inj h⟩
    · exact .inr ⟨by omega, h⟩

theorem kept_setNode_none (t : RatchetTree) (i : ℤ) : Kept t (setNode t i none) := by
  apply kept_of_holds
  intro n node h
  rcases holds_setNode h with ⟨-, hv⟩ | ⟨-, h⟩
  · cases hv
  · exact h

theorem placed_setNode (t : RatchetTree) (m : ℕ) (leaf : LeafNode) :
    Placed t (setNode t (m : ℤ) (some (.leaf leaf))) m leaf := by
  intro n node h
  rcases holds_setNode h with ⟨hn, hv⟩ | ⟨hn, h⟩
  · exact .inl ⟨by omega, (Option.some.inj hv).symm⟩
  · exact .inr ⟨by omega, node, h, .refl node⟩

theorem kept_blankPath (t : RatchetTree) (path : List ℤ) : Kept t (blankPath t path) := by
  unfold blankPath
  suffices h : ∀ copy : RatchetTree, Kept t copy → Kept t (path.foldl (fun copy nodeIndex =>
      if nodeAt t nodeIndex ≠ none then setNode copy nodeIndex none else copy) copy) from
    h t (.refl t)
  induction path with
  | nil => exact fun copy hcopy => hcopy
  | cons i path ih =>
    intro copy hcopy
    rw [List.foldl_cons]
    apply ih
    split_ifs
    · exact hcopy.trans (kept_setNode_none copy i)
    · exact hcopy

theorem leafToNodeIndex_natCast (i : ℕ) : leafToNodeIndex i = ((2 * i : ℕ) : ℤ) := by
  rw [leafToNodeIndex_eq, coord, InOrder.index_zero]

/-- An Update's leaf stands at its sender's index. -/
theorem placed_updateLeafNode {i : ℕ} (h : updateLeafNode t leaf i = .ok t') :
    Placed t t' (2 * i) leaf := by
  obtain ⟨path, -, h⟩ := bind_eq_ok.mp h
  rw [← Except.ok.inj h, leafToNodeIndex_natCast]
  exact (kept_blankPath t path).placed (placed_setNode _ _ _)

theorem kept_of_append (t s : RatchetTree) : Kept (t ++ s) t := by
  apply kept_of_holds
  intro n node hn
  unfold NodeAt at *
  rwa [List.getElem?_append_left (List.getElem?_eq_some_iff.mp hn).1]

theorem kept_stripBlankNodes (t : RatchetTree) : Kept t (stripBlankNodes t) := by
  obtain ⟨s, hs⟩ : stripBlankNodes t <+: t := List.rdropWhile_prefix _ _
  have h := kept_of_append (stripBlankNodes t) s
  rwa [hs] at h

theorem kept_extendRatchetTree (h : extendRatchetTree t = .ok t') : Kept t t' := by
  simp only [extendRatchetTree] at h
  split_ifs at h
  · cases h
  · obtain ⟨size, -, h⟩ := bind_eq_ok.mp h
    obtain rfl := Except.ok.inj h
    apply kept_of_holds
    intro n node hn
    unfold NodeAt at *
    rw [List.getElem?_append] at hn
    split_ifs at hn with hlt
    · exact hn
    · simp [List.getElem?_replicate] at hn

theorem kept_removeLeafNode {i : ℕ} (h : removeLeafNode t i = .ok t') : Kept t t' := by
  obtain ⟨path, -, h⟩ := bind_eq_ok.mp h
  simp only [condenseRatchetTreeAfterRemove] at h
  split_ifs at h
  have hblank := (kept_blankPath t path).trans (kept_setNode_none _ (leafToNodeIndex i))
  exact (hblank.trans (kept_stripBlankNodes _)).trans (kept_extendRatchetTree h)

/-- Unmerged leaves are added to parent nodes without another change. -/
theorem Kept.addUnmergedLeaf {c c' : RatchetTree} {i : ℕ} {p : ℤ} (hc : Kept t c)
    (h : addUnmergedLeaf t i c p = .ok c') : Kept t c' := by
  unfold WebcryptoMls.addUnmergedLeaf at h
  split at h
  · rwa [← Except.ok.inj h]
  · rename_i parent hparent
    rw [← Except.ok.inj h]
    intro n node hn
    rcases holds_setNode hn with ⟨hp, hv⟩ | ⟨-, hn⟩
    · refine ⟨.parent parent, ?_, ?_⟩
      · rw [← hp, nodeAt, if_neg (by omega), Int.toNat_natCast, Option.join_eq_some_iff] at hparent
        exact hparent
      · rw [← Option.some.inj hv]
        rfl
    · exact hc n node hn
  · cases h

/-- An Add's leaf stands at the first blank leaf, or past the end. -/
theorem placed_addLeafNode {p : ℤ} (h : addLeafNode t leaf = .ok (t', p)) :
    p = findBlankLeafNodeIndexOrExtend t ∧ ∃ m : ℕ, p = m ∧ Placed t t' m leaf := by
  unfold addLeafNode at h
  unfold findBlankLeafNodeIndexOrExtend
  split at h
  · rename_i hnone
    simp only [extendTree] at h
    split_ifs at h
    obtain ⟨rfl, rfl⟩ := Prod.mk.inj (Except.ok.inj h)
    refine ⟨by rw [hnone]; rfl, t.length + 1, by push_cast; rfl, fun n node hn => ?_⟩
    unfold NodeAt at *
    rw [List.getElem?_append] at hn
    split_ifs at hn with hlt
    · exact .inr ⟨by omega, node, hn, .refl node⟩
    · obtain hzero | hone | ⟨k, hk⟩ : n - t.length = 0 ∨ n - t.length = 1 ∨
          ∃ k, n - t.length = k + 2 := by
        rcases h0 : n - t.length with _ | _ | k
        · simp
        · simp
        · exact .inr (.inr ⟨k, rfl⟩)
      · simp [hzero] at hn
      · simp only [hone, List.getElem?_cons_succ, List.getElem?_cons_zero, Option.some.injEq] at hn
        exact .inl ⟨by omega, hn.symm⟩
      · simp [hk, List.getElem?_replicate] at hn
  · rename_i blankLeaf hblank
    obtain ⟨i, -, h⟩ := bind_eq_ok.mp h
    obtain ⟨path, -, h⟩ := bind_eq_ok.mp h
    obtain ⟨copy, hcopy, h⟩ := bind_eq_ok.mp h
    obtain ⟨rfl, rfl⟩ := Prod.mk.inj (Except.ok.inj h)
    have hkept : Kept t copy := foldlM_inv (P := Kept t) (.refl t)
      (fun _ _ b c hb hc => hb.addUnmergedLeaf hc) hcopy
    obtain ⟨m, rfl⟩ : ∃ m : ℕ, blankLeaf = m := by
      obtain ⟨⟨x, m⟩, -, hm⟩ := Option.map_eq_some_iff.mp hblank
      exact ⟨m, hm.symm⟩
    exact ⟨by rw [hblank]; rfl, m, rfl, hkept.placed (placed_setNode _ _ _)⟩

/-- A leaf that is placed where it stands already. -/
theorem Placed.again (h : Placed t t₁ m leaf) (h' : Placed t₁ t' m leaf) : Placed t t' m leaf := by
  intro n node hn
  rcases h' n node hn with hplaced | ⟨hne, node₁, hn₁, hkey₁⟩
  · exact .inl hplaced
  · rcases h n node₁ hn₁ with ⟨heq, -⟩ | ⟨-, node₂, hn₂, hkey₂⟩
    · exact absurd heq hne
    · exact .inr ⟨hne, node₂, hn₂, hkey₂.trans hkey₁⟩

end

/-! ## Proposals -/

section
variable (cs : CiphersuiteImpl) (gc : GroupContext) (authService : AuthenticationService)

/-- Nodes are left out, or a leaf is placed that passed the checks against the tree, the
place it is to have excepted. -/
inductive LeafStep (t t' : RatchetTree) : List LeafNode → Prop
  | kept (kept : Kept t t') : LeafStep t t' []
  | placed {m : ℕ} {leafIndex : Option ℕ} {leaf : LeafNode} {priorCredential : Option Credential}
      (valid : validateLeafNodeCommon leaf gc t authService cs.hpke (summarizeLeaves t) leafIndex
        priorCredential = .ok none)
      (outside : ∀ n, n ≠ m → ¬ isReplaced leafIndex n) (placed : Placed t t' m leaf) :
      LeafStep t t' [leaf]

/-- One step after the other, with the leaves they brought in. -/
inductive LeafSteps : RatchetTree → List LeafNode → RatchetTree → Prop
  | refl (t : RatchetTree) : LeafSteps t [] t
  | head {t t₁ t' : RatchetTree} {brought rest : List LeafNode}
      (first : LeafStep cs gc authService t t₁ brought) (later : LeafSteps t₁ rest t') :
      LeafSteps t (brought ++ rest) t'

end

section
variable {cs : CiphersuiteImpl} {gc : GroupContext} {authService : AuthenticationService}
  {t t' t₁ : RatchetTree} {brought rest : List LeafNode}

theorem LeafStep.steps (h : LeafStep cs gc authService t t' brought) :
    LeafSteps cs gc authService t brought t' := by
  have := LeafSteps.head h (.refl t')
  rwa [List.append_nil] at this

theorem LeafSteps.trans (h : LeafSteps cs gc authService t brought t₁)
    (h' : LeafSteps cs gc authService t₁ rest t') :
    LeafSteps cs gc authService t (brought ++ rest) t' := by
  induction h with
  | refl t => exact h'
  | head first _ ih =>
    rw [List.append_assoc]
    exact .head first (ih h')

/-- A loop whose rounds are steps. -/
theorem leafSteps_foldlM {α β : Type} (tree : β → RatchetTree) (leaves : α → List LeafNode)
    {f : β → α → Except MlsError β} {l : List α}
    (hf : ∀ a ∈ l, ∀ b c, f b a = .ok c → LeafStep cs gc authService (tree b) (tree c) (leaves a))
    {b c : β} (h : l.foldlM f b = .ok c) :
    LeafSteps cs gc authService (tree b) (l.flatMap leaves) (tree c) := by
  induction l generalizing b with
  | nil =>
    obtain rfl := Except.ok.inj h
    exact .refl _
  | cons a l ih =>
    rw [List.foldlM_cons] at h
    obtain ⟨b₁, hb₁, h⟩ := bind_eq_ok.mp h
    rw [List.forall_mem_cons] at hf
    exact .head (hf.1 b b₁ hb₁) (ih hf.2 h)

/-- An Update's and a path's leaf pass the checks all leaves pass. -/
theorem validateLeafNodeUpdateOrCommit_common {leaf : LeafNode} {leafIndex : ℕ} {sig : Signature}
    {priorCredential : Option Credential} {leaves : LeafSummary} {hpke : Hpke}
    (h : validateLeafNodeUpdateOrCommit leaf leafIndex gc t authService sig hpke priorCredential
      leaves = .ok none) :
    validateLeafNodeCommon leaf gc t authService hpke leaves (some leafIndex) priorCredential =
      .ok none := by
  obtain ⟨smallOrder, -, h⟩ := bind_eq_ok.mp h
  split at h
  · cases h
  · obtain ⟨signatureValid, -, h⟩ := bind_eq_ok.mp h
    split at h
    · cases h
    · exact h

theorem validateLeafNodeKeyPackage_common {leaf : LeafNode} {sentByClient : Bool}
    {config : LifetimeConfig} {leafIndex : Option ℕ} {sig : Signature} {hpke : Hpke}
    {leaves : LeafSummary} {currentTime : ℤ}
    (h : validateLeafNodeKeyPackage leaf gc t sentByClient config authService leafIndex sig hpke
      leaves currentTime = .ok none) :
    validateLeafNodeCommon leaf gc t authService hpke leaves leafIndex none = .ok none := by
  obtain ⟨smallOrder, -, h⟩ := bind_eq_ok.mp h
  split at h
  · cases h
  · obtain ⟨signatureValid, -, h⟩ := bind_eq_ok.mp h
    split at h
    · cases h
    · split at h
      · cases h
      · exact h

/-- So does the leaf of a key package. -/
theorem validateKeyPackage_common {kp : KeyPackage} {sentByClient : Bool} {config : LifetimeConfig}
    {sig : Signature} {hpke : Hpke} {currentTime : ℤ}
    (h : validateKeyPackage kp gc t sentByClient config authService sig hpke currentTime = .ok none) :
    validateLeafNodeCommon kp.leafNode.leaf gc t authService hpke (summarizeLeaves t) none none =
      .ok none := by
  unfold validateKeyPackage at h
  split at h
  · cases h
  split at h
  · cases h
  · obtain ⟨leafNodeError, hleaf, h⟩ := bind_eq_ok.mp h
    cases leafNodeError with
    | some e => cases h
    | none => exact validateLeafNodeKeyPackage_common hleaf

theorem isReplaced_some {i n : ℕ} : isReplaced (some i) n ↔ n = 2 * i := by
  simp [isReplaced, eq_comm]

variable {m : TreeMutations}

theorem applyUpdate_step {ratchetTree : RatchetTree} {update : Sent LeafNodeUpdate}
    (h : applyUpdate cs m ratchetTree t update = .ok t') :
    LeafStep cs m.gc m.authService t t' [update.proposal.leaf] := by
  unfold applyUpdate at h
  split at h
  · cases h
  · rename_i i _
    obtain ⟨_, -, h⟩ := bind_eq_ok.mp h
    obtain ⟨leafError, hleaf, h⟩ := bind_eq_ok.mp h
    obtain ⟨_, hnone, h⟩ := bind_eq_ok.mp h
    rw [throwIfDefined_eq_ok.mp hnone] at hleaf
    exact .placed (validateLeafNodeUpdateOrCommit_common hleaf)
      (fun n hn => fun hrep => hn (isReplaced_some.mp hrep)) (placed_updateLeafNode h)

theorem applyRemove_step {ratchetTree : RatchetTree} {remove : Sent ℕ}
    (h : applyRemove ratchetTree t remove = .ok t') : LeafStep cs gc authService t t' [] := by
  obtain ⟨_, -, h⟩ := bind_eq_ok.mp h
  exact .kept (kept_removeLeafNode h)

theorem applyAdd_step {acc acc' : RatchetTree × List (ℕ × KeyPackage)} {add : Sent KeyPackage}
    (h : applyAdd cs m acc add = .ok acc') :
    LeafStep cs m.gc m.authService acc.1 acc'.1 [add.proposal.leafNode.leaf] := by
  obtain ⟨keyPackageError, hpackage, h⟩ := bind_eq_ok.mp h
  obtain ⟨_, hnone, h⟩ := bind_eq_ok.mp h
  obtain ⟨⟨updatedTree, leafNodeIndex⟩, hadd, h⟩ := bind_eq_ok.mp h
  obtain ⟨leafIndex, -, h⟩ := bind_eq_ok.mp h
  obtain rfl := Except.ok.inj h
  rw [throwIfDefined_eq_ok.mp hnone] at hpackage
  obtain ⟨-, k, -, hplaced⟩ := placed_addLeafNode hadd
  exact .placed (validateKeyPackage_common hpackage) (fun n _ => by simp [isReplaced]) hplaced

/-- The leaves a commit's proposals bring in. -/
def proposedLeaves (grouped : Proposals) : List LeafNode :=
  (grouped.update.map fun u => u.proposal.leaf) ++ grouped.add.map fun a => a.proposal.leafNode.leaf

theorem applyTreeMutations_steps {grouped : Proposals} {result : RatchetTree × List (ℕ × KeyPackage)}
    (h : applyTreeMutations t grouped m cs = .ok result) :
    LeafSteps cs m.gc m.authService t (proposedLeaves grouped) result.1 := by
  obtain ⟨treeAfterUpdate, hupdate, h⟩ := bind_eq_ok.mp h
  obtain ⟨treeAfterRemove, hremove, h⟩ := bind_eq_ok.mp h
  have hupdates := leafSteps_foldlM id (fun u => [u.proposal.leaf])
    (fun u _ b c hc => applyUpdate_step hc) hupdate
  have hremoves : LeafSteps cs m.gc m.authService treeAfterUpdate _ treeAfterRemove :=
    leafSteps_foldlM id (fun _ => []) (fun r _ b c hc => applyRemove_step hc) hremove
  have hadds := leafSteps_foldlM Prod.fst (fun a => [a.proposal.leafNode.leaf])
    (fun a _ b c hc => applyAdd_step hc) h
  have hnone : (grouped.remove.flatMap fun _ => ([] : List LeafNode)) = [] :=
    List.flatMap_eq_nil_iff.mpr fun _ _ => rfl
  rw [hnone] at hremoves
  simpa [proposedLeaves, List.map_eq_flatMap] using hupdates.trans (hremoves.trans hadds)

/-- Without Adds and Updates a commit brings no leaf in. -/
theorem applyExternalProposals_leaves {state : ClientState cs.signature}
    {allProposals : List ProposalWithSender} {grouped : Proposals} {pskSearch : PskIndex}
    {newMemberLeafNode : Option LeafNode} {result : ApplyProposalsResult}
    (h : applyExternalProposals cs state allProposals grouped pskSearch newMemberLeafNode =
      .ok result) : proposedLeaves grouped = [] := by
  obtain ⟨_, hinit, -⟩ := bind_eq_ok.mp h
  have hnone := throwIfDefined_eq_ok.mp hinit
  unfold validateExternalInit at hnone
  split_ifs at hnone with _ _ hother
  simp only [gt_iff_lt, List.length_pos_iff, not_or, not_not] at hother
  simp [proposedLeaves, hother.1, hother.2.2.2]

/-- The index an external commit's leaf is checked for is the one it is placed at. -/
theorem applyExternalProposals_leafIndex {state : ClientState cs.signature}
    {allProposals : List ProposalWithSender} {grouped : Proposals} {pskSearch : PskIndex}
    {newMemberLeafNode : Option LeafNode} {result : ApplyProposalsResult}
    (h : applyExternalProposals cs state allProposals grouped pskSearch newMemberLeafNode =
      .ok result) {secret : Bytes} {newMemberLeafIndex : ℕ} {prior : Option Credential}
    (hdata : result.additionalResult = .externalCommit secret newMemberLeafIndex prior) :
    nodeToLeafIndex (findBlankLeafNodeIndexOrExtend result.tree) = .ok newMemberLeafIndex := by
  obtain ⟨_, -, h⟩ := bind_eq_ok.mp h
  obtain ⟨_, -, h⟩ := bind_eq_ok.mp h
  obtain ⟨_, -, h⟩ := bind_eq_ok.mp h
  obtain ⟨_, -, h⟩ := bind_eq_ok.mp h
  obtain ⟨priorCredential, -, h⟩ := bind_eq_ok.mp h
  obtain ⟨treeAfterRemove, -, h⟩ := bind_eq_ok.mp h
  obtain ⟨⟨pskSecret, pskIds⟩, -, h⟩ := bind_eq_ok.mp h
  dsimp only at h
  split at h
  · cases h
  · obtain ⟨⟨privateKey, _⟩, -, h⟩ := bind_eq_ok.mp h
    obtain ⟨exported, -, h⟩ := bind_eq_ok.mp h
    obtain ⟨externalInitSecret, -, h⟩ := bind_eq_ok.mp h
    obtain ⟨leafIndex, hindex, h⟩ := bind_eq_ok.mp h
    obtain rfl := Except.ok.inj h
    injection hdata with _ heq
    rwa [← heq]

theorem groupProposals_reinit {p : ProposalWithSender} {reinit : Sent Reinit}
    {rest : List (Sent Reinit)} (h : (groupProposals [p]).reinit = reinit :: rest) :
    proposedLeaves (groupProposals [p]) = [] := by
  obtain ⟨proposal, senderLeafIndex, senderType⟩ := p
  cases proposal <;> simp_all [groupProposals, groupProposal, emptyProposals, proposedLeaves]

variable {state : ClientState cs.signature} {proposals : List ProposalOrRef}
  {committerLeafIndex : Option ℕ} {pskSearch : PskIndex} {sentByClient : Bool}
  {newMemberLeafNode : Option LeafNode} {senderType : SenderTypeName} {currentTime : ℤ}
  {result : ApplyProposalsResult}

/-- The proposals of a commit, with the senders of those it refers to. -/
def resolveProposals (state : ClientState cs.signature) (committerLeafIndex : Option ℕ)
    (senderType : SenderTypeName) (proposals : List ProposalOrRef) :
    Except MlsError (List ProposalWithSender) :=
  proposals.mapM (resolveProposal state.unappliedProposals committerLeafIndex senderType)

/-- A commit's proposals place the leaves they bring in, one after the other. -/
theorem applyProposals_steps (h : applyProposals cs state proposals committerLeafIndex pskSearch
      sentByClient newMemberLeafNode senderType currentTime = .ok result) :
    ∃ allProposals,
      resolveProposals state committerLeafIndex senderType proposals = .ok allProposals ∧
      LeafSteps cs (groupContextWithExtensions state.groupContext result.additionalResult)
        state.clientConfig.authService state.ratchetTree
        (proposedLeaves (groupProposals allProposals)) result.tree := by
  obtain ⟨allProposals, hall, -, h⟩ := applyProposals_eq_ok h
  refine ⟨allProposals, hall, ?_⟩
  simp only [applyGroupedProposals] at h
  split_ifs at h with hexternal
  · rw [applyExternalProposals_leaves h]
    have hsteps : LeafSteps cs (groupContextWithExtensions state.groupContext result.additionalResult)
        state.clientConfig.authService state.ratchetTree
        ((groupProposals allProposals).remove.flatMap fun _ => []) result.tree :=
      leafSteps_foldlM id (fun _ => []) (fun r _ b c hc => .kept (kept_removeLeafNode hc))
        (applyExternalProposals_eq_ok h).1
    rwa [List.flatMap_eq_nil_iff.mpr fun _ _ => rfl] at hsteps
  · split at h
    · rename_i reinit rest hreinit
      obtain ⟨_, hvalid, -⟩ := bind_eq_ok.mp h
      have hone := throwIfDefined_eq_ok.mp hvalid
      unfold validateReinit at hone
      split_ifs at hone with hlen
      obtain ⟨p, rfl⟩ := List.length_eq_one_iff.mp (not_not.mp hlen)
      rw [groupProposals_reinit hreinit, (applyReinit_eq_ok h).1]
      exact .refl _
    · obtain ⟨tree, addedLeafNodes, _, _, -, htree, rfl⟩ := applyMemberProposals_eq_ok h
      exact applyTreeMutations_steps htree

end

/-! ## Paths -/

/-- Parent nodes are written, one after the other. -/
inductive NodesWritten : RatchetTree → List Bytes → RatchetTree → Prop
  | refl (t : RatchetTree) : NodesWritten t [] t
  | head {t t' : RatchetTree} {keys : List Bytes} (i : ℤ) (parent : ParentNode)
      (later : NodesWritten (setNode t i (some (.parent parent))) keys t') :
      NodesWritten t (parent.hpkePublicKey :: keys) t'

theorem NodesWritten.holdsLeaf {t t' : RatchetTree} {keys : List Bytes}
    (h : NodesWritten t keys t') {n : ℕ} {leaf : LeafNode} (hn : HoldsLeaf t' n leaf) :
    HoldsLeaf t n leaf := by
  induction h with
  | refl t => exact hn
  | head i parent _ ih =>
    rcases holds_setNode (ih hn) with ⟨-, hv⟩ | ⟨-, hn⟩
    · cases hv
    · exact hn

theorem nodesWritten_foldlM {h : Hash} {writes : List (ℤ × UpdatePathNode)} {c c' : RatchetTree}
    (hw : writes.foldlM (fun copy w => writePathNode h copy w.1 w.2) c = .ok c') :
    NodesWritten c (writes.map fun w => w.2.hpkePublicKey) c' := by
  induction writes generalizing c with
  | nil =>
    obtain rfl := Except.ok.inj hw
    exact .refl _
  | cons w writes ih =>
    rw [List.foldlM_cons] at hw
    obtain ⟨mid, hmid, hw⟩ := bind_eq_ok.mp hw
    obtain ⟨parent, hkey, rfl⟩ := writePathNode_eq_ok hmid
    rw [List.map_cons, ← hkey]
    exact .head w.1 parent (ih hw)

theorem hasDuplicateKeyWithinPath_iff {nodes : List UpdatePathNode} :
    hasDuplicateKeyWithinPath nodes = false ↔ (nodes.map UpdatePathNode.hpkePublicKey).Nodup := by
  refine ⟨fun h => ?_, hasDuplicateKeyWithinPath_eq_false⟩
  rw [List.nodup_iff_injective_getElem]
  intro ⟨x, hx⟩ ⟨y, hy⟩ hkey
  rw [List.length_map] at hx hy
  simp only [List.getElem_map] at hkey
  by_contra hne
  rw [← Bool.not_eq_true, hasDuplicateKeyWithinPath, List.any_eq_true] at h
  refine h ⟨(nodes[x], x), List.mem_zipIdx_iff_getElem?.mpr (List.getElem?_eq_getElem hx), ?_⟩
  refine List.any_eq_true.mpr
    ⟨(nodes[y], y), List.mem_zipIdx_iff_getElem?.mpr (List.getElem?_eq_getElem hy), ?_⟩
  simpa [hkey] using fun heq => hne (Fin.ext heq)

theorem validateUpdatePathKeys_eq_ok {t : RatchetTree} {i : ℕ} {path : UpdatePath}
    {isExternal : Bool} (h : validateUpdatePathKeys t i path isExternal = .ok ()) :
    (∀ node ∈ path.nodes, node.hpkePublicKey ∉ keysOf t) ∧
      (path.nodes.map UpdatePathNode.hpkePublicKey).Nodup ∧
      ∀ node ∈ path.nodes, node.hpkePublicKey ≠ path.leafNode.leaf.hpkePublicKey := by
  have hchecks : (path.nodes.any fun node => keyInTree t node.hpkePublicKey) = false ∧
      hasDuplicateKeyWithinPath path.nodes = false ∧
      (path.nodes.any fun node =>
        constantTimeEqual node.hpkePublicKey path.leafNode.leaf.hpkePublicKey) = false := by
    unfold validateUpdatePathKeys at h
    generalize (path.nodes.any fun node => keyInTree t node.hpkePublicKey) = inTree at h ⊢
    generalize hasDuplicateKeyWithinPath path.nodes = duplicate at h ⊢
    generalize (path.nodes.any fun node =>
      constantTimeEqual node.hpkePublicKey path.leafNode.leaf.hpkePublicKey) = ofLeaf at h ⊢
    cases isExternal <;> cases inTree <;> cases duplicate <;> cases ofLeaf <;>
      simp [throw, throwThe, MonadExceptOf.throw] at h ⊢ <;> (repeat' split at h) <;> cases h
  obtain ⟨htree, hpath, hleaf⟩ := hchecks
  rw [List.any_eq_false] at htree hleaf
  exact ⟨fun node hnode hkey => htree node hnode (keyInTree_iff.mpr hkey),
    hasDuplicateKeyWithinPath_iff.mp hpath,
    fun node hnode hkey => hleaf node hnode (constantTimeEqual_iff.mpr hkey)⟩

/-- A path places its leaf and writes nodes whose keys are new and differ. -/
theorem applyUpdatePath_writes {t t' : RatchetTree} {i : ℕ} {path : UpdatePath} {h : Hash}
    {isExternal : Bool} (happly : applyUpdatePath t i path h isExternal = .ok t') :
    ∃ keys : List Bytes, keys.Nodup ∧
      (∀ key ∈ keys, key ∉ keysOf (setNode t (2 * i : ℕ) (some (.leaf path.leafNode.leaf)))) ∧
      NodesWritten (setNode t (2 * i : ℕ) (some (.leaf path.leafNode.leaf))) keys t' := by
  obtain ⟨_, hvalid, happly⟩ := bind_eq_ok.mp happly
  obtain ⟨fdp, -, happly⟩ := bind_eq_ok.mp happly
  dsimp only at happly
  split_ifs at happly with hlen
  · cases happly
  · obtain ⟨copy, hcopy, happly⟩ := bind_eq_ok.mp happly
    obtain ⟨⟨leafParentHash, _⟩, -, happly⟩ := bind_eq_ok.mp happly
    dsimp only at happly
    split_ifs at happly
    · cases happly
    · obtain rfl := Except.ok.inj happly
      obtain ⟨htree, hpath, hleaf⟩ := validateUpdatePathKeys_eq_ok hvalid
      have hlen' : fdp.reverse.length = path.nodes.reverse.length := (not_not.mp hlen).symm
      have hsnd : (fdp.reverse.zip path.nodes.reverse).map Prod.snd = path.nodes.reverse :=
        List.map_snd_zip hlen'.ge
      have hkeys : ((fdp.reverse.zip path.nodes.reverse).map fun w => w.2.hpkePublicKey) =
          (path.nodes.map UpdatePathNode.hpkePublicKey).reverse := by
        rw [← List.map_reverse, ← congrArg (List.map UpdatePathNode.hpkePublicKey) hsnd, List.map_map]
        rfl
      refine ⟨(path.nodes.map UpdatePathNode.hpkePublicKey).reverse, List.nodup_reverse.mpr hpath,
        ?_, ?_⟩
      · intro key hkey hmem
        obtain ⟨node, hnode, rfl⟩ := List.mem_map.mp (List.mem_reverse.mp hkey)
        rcases keysOf_setNode _ _ _ hmem with heq | hold
        · exact hleaf node hnode heq
        · exact htree node hnode hold
      · rw [← hkeys, ← leafToNodeIndex_natCast]
        exact nodesWritten_foldlM hcopy

theorem nodeToLeafIndex_natCast {m i : ℕ} (h : nodeToLeafIndex m = .ok i) : m = 2 * i := by
  unfold nodeToLeafIndex at h
  split_ifs at h with heven
  have hi := Except.ok.inj h
  simp only [isLeaf, Bool.not_eq_true', Bool.not_eq_false, beq_iff_eq] at heven
  omega

/-- The leaf of a commit's path. -/
def pathLeaves (path : Option UpdatePath) : List LeafNode := path.toList.map fun p => p.leafNode.leaf

section
variable {cs : CiphersuiteImpl} {state : ClientState cs.signature} {sender : Sender}
  {result : ApplyProposalsResult}

/-- The leaf of a path has been checked for the place it is written to. -/
theorem applyTreeUpdate_steps {path : Option UpdatePath} {privatePath : PrivateKeyPath}
    {excludeNodes : List ℤ} {update : TreeUpdate}
    (hvalid : validateCommitPath cs state sender result path = .ok ())
    (hindex : ∀ secret leafIndex prior,
      result.additionalResult = .externalCommit secret leafIndex prior →
      nodeToLeafIndex (findBlankLeafNodeIndexOrExtend result.tree) = .ok leafIndex)
    (h : applyTreeUpdate cs path sender result.tree privatePath
      (groupContextWithExtensions state.groupContext result.additionalResult) excludeNodes =
      .ok update) :
    ∃ mid keys, LeafSteps cs (groupContextWithExtensions state.groupContext result.additionalResult)
        state.clientConfig.authService result.tree (pathLeaves path) mid ∧
      keys.Nodup ∧ (∀ key ∈ keys, key ∉ keysOf mid) ∧ NodesWritten mid keys update.tree := by
  cases path with
  | none =>
    obtain ⟨treeHash, -, h⟩ := bind_eq_ok.mp h
    obtain rfl := Except.ok.inj h
    exact ⟨result.tree, [], .refl _, List.nodup_nil, by simp, .refl _⟩
  | some path =>
    have htree {updatedTree : RatchetTree} {i : ℕ}
        (h : applyUpdatedTree cs updatedTree privatePath i
          (groupContextWithExtensions state.groupContext result.additionalResult) path excludeNodes =
          .ok update) : update.tree = updatedTree := by
      obtain ⟨treeHash, -, h⟩ := bind_eq_ok.mp h
      obtain ⟨updated, -, h⟩ := bind_eq_ok.mp h
      rw [← Except.ok.inj h]
    unfold validateCommitPath at hvalid
    dsimp only at hvalid
    split at hvalid
    · cases hvalid
    · rename_i committerLeafIndex hcommitter
      obtain ⟨err, hleaf, hnone⟩ := bind_eq_ok.mp hvalid
      rw [throwIfDefined_eq_ok.mp hnone] at hleaf
      have hcommon := validateLeafNodeUpdateOrCommit_common hleaf
      unfold applyTreeUpdate at h
      dsimp only at h
      split at h
      · rename_i i
        obtain ⟨updatedTree, happly, h⟩ := bind_eq_ok.mp h
        rw [htree h]
        obtain ⟨keys, hnodup, hfresh, hwritten⟩ := applyUpdatePath_writes happly
        have hi : committerLeafIndex = i := by
          unfold committerLeaf at hcommitter
          split at hcommitter <;> simpa [getSenderLeafNodeIndex, eq_comm] using hcommitter
        subst hi
        exact ⟨_, keys, (LeafStep.placed hcommon (fun n hn hrep => hn (isReplaced_some.mp hrep))
          (placed_setNode _ _ _)).steps, hnodup, hfresh, hwritten⟩
      · rename_i hmember
        obtain ⟨⟨treeWithLeafNode, leafNodeIndex⟩, hadd, h⟩ := bind_eq_ok.mp h
        obtain ⟨senderLeafIndex, hsender, h⟩ := bind_eq_ok.mp h
        obtain ⟨updatedTree, happly, h⟩ := bind_eq_ok.mp h
        rw [htree h]
        obtain ⟨hfirst, m, rfl, hplaced⟩ := placed_addLeafNode hadd
        obtain ⟨keys, hnodup, hfresh, hwritten⟩ := applyUpdatePath_writes happly
        have hown : getSenderLeafNodeIndex sender = none := by
          cases sender with
          | member i => exact absurd rfl (hmember i)
          | _ => rfl
        have hexternal : nodeToLeafIndex (findBlankLeafNodeIndexOrExtend result.tree) =
            .ok committerLeafIndex := by
          unfold committerLeaf at hcommitter
          split at hcommitter
          · rename_i secret k prior hdata
            rw [hown, Option.none_or] at hcommitter
            obtain rfl := Option.some.inj hcommitter
            exact hindex _ _ _ hdata
          · rw [hown] at hcommitter
            cases hcommitter
        rw [← hfirst] at hexternal
        obtain rfl := Except.ok.inj (hexternal.symm.trans hsender)
        obtain rfl : m = 2 * committerLeafIndex := nodeToLeafIndex_natCast hsender
        exact ⟨_, keys, (LeafStep.placed hcommon (fun n hn hrep => hn (isReplaced_some.mp hrep))
          (hplaced.again (placed_setNode _ _ _))).steps, hnodup, hfresh, hwritten⟩

/-- A commit that is followed places its proposals' leaves and its path's leaf, and writes
the nodes of the path. -/
theorem FollowedCommit.Follows.steps {f : FollowedCommit cs} {pskSearch : PskIndex}
    {currentTime : ℤ} (h : f.Follows state pskSearch currentTime) :
    ∃ allProposals mid keys,
      resolveProposals state (getSenderLeafNodeIndex f.content.content.sender)
        f.content.content.sender.senderType f.commit.proposals = .ok allProposals ∧
      LeafSteps cs (groupContextWithExtensions state.groupContext f.applied.additionalResult)
        state.clientConfig.authService state.ratchetTree
        (proposedLeaves (groupProposals allProposals) ++ pathLeaves f.commit.path) mid ∧
      keys.Nodup ∧ (∀ key ∈ keys, key ∉ keysOf mid) ∧
      NodesWritten mid keys (f.newState state).ratchetTree := by
  obtain ⟨allProposals, hall, hsteps⟩ := applyProposals_steps h.applied
  obtain ⟨mid, keys, hpath, hnodup, hfresh, hwritten⟩ := applyTreeUpdate_steps h.path
    (fun secret leafIndex prior hdata => by
      obtain ⟨allProposals, -, -, happlied⟩ := applyProposals_eq_ok h.applied
      obtain ⟨-, hexternal⟩ | ⟨reinit, hreinit⟩ | hmember := applyGroupedProposals_cases happlied
      · exact applyExternalProposals_leafIndex hexternal hdata
      · rw [(applyReinit_eq_ok hreinit).2] at hdata
        cases hdata
      · obtain ⟨tree, addedLeafNodes, _, _, -, -, heq⟩ := applyMemberProposals_eq_ok hmember
        rw [heq] at hdata
        cases hdata) (deriveNextEpoch_eq_ok h.next).1
  exact ⟨allProposals, mid, keys, hall, hsteps.trans hpath, hnodup, hfresh, hwritten⟩

end

end WebcryptoMls
