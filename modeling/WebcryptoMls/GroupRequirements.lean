import WebcryptoMls.CredentialSupport
import WebcryptoMls.GroupEpochs

/-!
# The group's requirements

Every leaf is to list the extension types of the group context and what its
required_capabilities extension asks for. A GroupContextExtensions proposal is checked
against every leaf that stays and an Add against the context the commit leaves; an Update,
a path's leaf and an external joiner's are checked against required_capabilities alone, and
the leaf a group is created with against nothing. Where these list the extension types, all
leaves meet the requirements in every state a run comes to.
-/
namespace WebcryptoMls

/-- The leaf lists the extension types of the context and what is required. -/
structure MeetsRequirements (extensions : List Extension) (leaf : LeafNode) : Prop where
  listed : extensionsSupportedByCapabilities extensions leaf.capabilities = true
  required : requiredCapabilitiesError leaf extensions = .ok none

instance (extensions : List Extension) (leaf : LeafNode) :
    Decidable (MeetsRequirements extensions leaf) :=
  decidable_of_iff (extensionsSupportedByCapabilities extensions leaf.capabilities = true ∧
    requiredCapabilitiesError leaf extensions = .ok none)
    ⟨fun h => ⟨h.1, h.2⟩, fun h => ⟨h.listed, h.required⟩⟩

/-- All leaves of the tree do. -/
def GroupSupported (tree : RatchetTree) (extensions : List Extension) : Prop :=
  ∀ i leaf, leafAt tree i = some leaf → MeetsRequirements extensions leaf

/-- Only the capabilities of a leaf are looked at. -/
theorem MeetsRequirements.congr {extensions : List Extension} {a b : LeafNode}
    (h : MeetsRequirements extensions a) (hcap : b.capabilities = a.capabilities) :
    MeetsRequirements extensions b where
  listed := by rw [hcap]; exact h.listed
  required := by
    have hrequired := h.required
    unfold requiredCapabilitiesError at hrequired ⊢
    rwa [hcap]

/-! ## What the checks give -/

section
variable {p : Proposals} {extensions : List Extension} {remaining : List Capabilities}
  {authService : AuthenticationService} {tree : RatchetTree} {groupContext : GroupContext}
  {leaf : LeafNode}

theorem validateRequiredCapabilities_eq_ok
    (h : validateRequiredCapabilities p extensions remaining authService = .ok none)
    (hleaf : leaf.capabilities ∈ remaining) : requiredCapabilitiesError leaf extensions = .ok none := by
  unfold validateRequiredCapabilities at h
  unfold requiredCapabilitiesError
  cases hfind : findExtension extensions .required_capabilities with
  | none => rfl
  | some required =>
    rw [hfind] at h
    obtain ⟨caps, hdecode, h⟩ := bind_eq_ok.mp h
    dsimp only
    rw [hdecode, ok_bind]
    split at h
    · cases h
    · split at h
      · cases h
      · rename_i hall
        rw [Bool.not_eq_true', Bool.not_eq_false, List.all_eq_true] at hall
        simp [hall _ hleaf, pure, Except.pure]

/-- A leaf that no Update and no Remove names is among those that stay. -/
theorem mem_postMutationLeafCapabilities {i : ℕ}
    (h : postMutationLeafCapabilities tree p = .ok remaining)
    (hleaf : leafSlots tree i = some (.leaf leaf))
    (hnot : i ∉ (proposedChanges p).map LeafChange.target) : leaf.capabilities ∈ remaining := by
  obtain ⟨results, hresults, h⟩ := bind_eq_ok.mp h
  obtain rfl := Except.ok.inj h
  rw [leafSlots, slot_eq_getElem?, Option.join_eq_some_iff, InOrder.index_zero] at hleaf
  have hmem : (some (Node.leaf leaf), 2 * i) ∈ tree.zipIdx := List.mem_zipIdx_iff_getElem?.mpr hleaf
  simp only [proposedChanges, List.map_append, List.map_map, List.mem_append, List.mem_map,
    Function.comp_apply, LeafChange.target, not_or, not_exists, not_and] at hnot
  have hround : leafCapabilitiesAfter p (some (.leaf leaf), 2 * i) =
      .ok (some leaf.capabilities) := by
    have hindex : nodeToLeafIndex ((2 * i : ℕ) : ℤ) = .ok i := by
      simp [nodeToLeafIndex, isLeaf, pure, Except.pure]
    have hremove : (p.remove.any fun r => r.proposal == i) = false := by
      rw [List.any_eq_false]
      intro r hr heq
      exact hnot.2 r hr (beq_iff_eq.mp heq)
    have hupdate : (p.update.find? fun u => u.senderLeafIndex == some i) = none := by
      rw [List.find?_eq_none]
      intro u hu heq
      exact hnot.1 u hu (by rw [beq_iff_eq.mp heq, Option.getD_some])
    simp only [leafCapabilitiesAfter, hindex, ok_bind, hremove, hupdate]
    rfl
  obtain ⟨r, hr, hresult⟩ := exists_mem_of_mapM hresults _ hmem
  obtain rfl := Except.ok.inj (hround.symm.trans hresult)
  exact List.mem_filterMap.mpr ⟨_, hr, rfl⟩

/-- A leaf that stays meets what the context it stays in asks for. -/
theorem ProposalsValid.meets_after {committerLeafIndex : Option ℕ} {i : ℕ}
    (h : ProposalsValid p committerLeafIndex groupContext
      (groupContextAfterExtensions groupContext p) authService tree)
    (hleaf : leafSlots tree i = some (.leaf leaf))
    (hnot : i ∉ (proposedChanges p).map LeafChange.target)
    (hmeets : MeetsRequirements groupContext.extensions leaf) :
    MeetsRequirements (groupContextAfterExtensions groupContext p).extensions leaf := by
  unfold groupContextAfterExtensions
  split_ifs with hlen
  · exact hmeets
  · obtain ⟨pskError, -, hvalid⟩ := bind_eq_ok.mp h.extensions
    split at hvalid
    · cases hvalid
    split at hvalid
    · cases hvalid
    split at hvalid
    · cases hvalid
    obtain ⟨remaining, hremaining, hvalid⟩ := bind_eq_ok.mp hvalid
    have hmem := mem_postMutationLeafCapabilities hremaining hleaf hnot
    split at hvalid
    · cases hvalid
    · rename_i hlisted
      refine ⟨?_, validateRequiredCapabilities_eq_ok hvalid hmem⟩
      rw [not_and, Bool.not_eq_true', Bool.not_eq_false, List.all_eq_true] at hlisted
      cases hext : flattenExtensions p.group_context_extensions with
      | nil => rfl
      | cons e rest =>
        rw [hext] at hlisted
        exact hlisted (by simp) _ hmem

end

section
variable {cs : CiphersuiteImpl} {gc : GroupContext} {authService : AuthenticationService}
  {t t' : RatchetTree} {brought : List LeafNode}

/-- Every leaf that is placed has been checked against the required capabilities. -/
theorem LeafSteps.required (hs : LeafSteps cs gc authService t brought t') :
    ∀ leaf ∈ brought, requiredCapabilitiesError leaf gc.extensions = .ok none := by
  induction hs with
  | refl t => simp
  | head first _ ih =>
    rw [List.forall_mem_append]
    refine ⟨?_, ih⟩
    cases first with
    | kept hk => simp
    | placed hvalid houtside hp =>
      obtain ⟨-, -, hrequired, -, -⟩ := (validateLeafNodeCommon_accepts_iff ..).mp hvalid
      simpa using hrequired

variable {state : ClientState cs.signature} {proposals : List ProposalOrRef}
  {committerLeafIndex : Option ℕ} {pskSearch : PskIndex} {sentByClient : Bool}
  {newMemberLeafNode : Option LeafNode} {senderType : SenderTypeName} {currentTime : ℤ}
  {result : ApplyProposalsResult} {allProposals : List ProposalWithSender}

/-- The context of the next epoch has the extensions of the one GroupContextExtensions
proposal, if there is one. -/
theorem applyProposals_context
    (hall : resolveProposals state committerLeafIndex senderType proposals = .ok allProposals)
    (h : applyProposals cs state proposals committerLeafIndex pskSearch sentByClient
      newMemberLeafNode senderType currentTime = .ok result) :
    groupContextWithExtensions state.groupContext result.additionalResult =
      groupContextAfterExtensions state.groupContext (groupProposals allProposals) := by
  obtain ⟨_, hall', -, h⟩ := applyProposals_eq_ok h
  obtain rfl := Except.ok.inj (hall.symm.trans hall')
  simp only [applyGroupedProposals] at h
  split_ifs at h with hexternal
  · obtain ⟨-, _, _, _, hdata⟩ := applyExternalProposals_eq_ok h
    obtain ⟨_, hinit, -⟩ := bind_eq_ok.mp h
    have hinit := throwIfDefined_eq_ok.mp hinit
    unfold validateExternalInit at hinit
    split_ifs at hinit with _ _ hother
    rw [hdata, groupContextAfterExtensions, if_pos (by omega)]
    rfl
  · split at h
    · rename_i reinit rest hreinit
      obtain ⟨_, hvalid, -⟩ := bind_eq_ok.mp h
      have hone := throwIfDefined_eq_ok.mp hvalid
      unfold validateReinit at hone
      split_ifs at hone with hlen
      obtain ⟨p, rfl⟩ := List.length_eq_one_iff.mp (not_not.mp hlen)
      rw [(applyReinit_eq_ok h).2, groupContextAfterExtensions, if_pos]
      · rfl
      · obtain ⟨proposal, senderLeafIndex, senderType⟩ := p
        cases proposal <;> simp_all [groupProposals, groupProposal, emptyProposals]
    · obtain ⟨tree, addedLeafNodes, _, _, -, -, rfl⟩ := applyMemberProposals_eq_ok h
      rfl

/-- The proposals of a commit keep the requirements met where their leaves list the
extension types of the context they lead to. -/
theorem GroupSupported.applyProposals (hfull : FullTree state.ratchetTree)
    (hstate : GroupSupported state.ratchetTree state.groupContext.extensions)
    (hall : resolveProposals state committerLeafIndex senderType proposals = .ok allProposals)
    (h : applyProposals cs state proposals committerLeafIndex pskSearch sentByClient
      newMemberLeafNode senderType currentTime = .ok result)
    (hlisted : ∀ leaf ∈ proposedLeaves (groupProposals allProposals),
      extensionsSupportedByCapabilities
        (groupContextAfterExtensions state.groupContext (groupProposals allProposals)).extensions
        leaf.capabilities = true) :
    GroupSupported result.tree
      (groupContextAfterExtensions state.groupContext (groupProposals allProposals)).extensions := by
  intro i leaf hi
  obtain ⟨_, hall₁, hsteps⟩ := applyProposals_steps h
  obtain ⟨-, hfills⟩ := applyProposals_leafSlots hall (.inl hfull) h
  obtain rfl := Except.ok.inj (hall.symm.trans hall₁)
  rw [applyProposals_context hall h] at hsteps
  rcases cases_of_fillsAll hfills (leafAt_eq_some.mp hi) with hmem | ⟨hnot, hold⟩
  · exact ⟨hlisted leaf hmem, hsteps.required leaf hmem⟩
  · have hmeets := hstate i leaf (leafAt_eq_some.mpr hold)
    obtain ⟨_, hall₂, -, happlied⟩ := applyProposals_eq_ok h
    obtain rfl := Except.ok.inj (hall.symm.trans hall₂)
    obtain ⟨-, hexternal⟩ | ⟨reinit, hreinit⟩ | hmember := applyGroupedProposals_cases happlied
    · obtain ⟨-, _, _, _, hdata⟩ := applyExternalProposals_eq_ok hexternal
      rw [← applyProposals_context hall h, hdata]
      exact hmeets
    · rw [← applyProposals_context hall h, (applyReinit_eq_ok hreinit).2]
      exact hmeets
    · obtain ⟨tree, addedLeafNodes, _, _, hproposals, -, -⟩ := applyMemberProposals_eq_ok hmember
      exact (validateProposals_eq_ok hproposals).meets_after hold hnot hmeets

end

/-! ## Runs -/

section
variable {cs : CiphersuiteImpl} {state : ClientState cs.signature}

/-- The context a commit leads to, but for the hashes and the epoch. -/
def commitContext (state : ClientState cs.signature) (sender : Sender) (commit : Commit) :
    Except MlsError GroupContext := do
  let allProposals ← resolveProposals state (getSenderLeafNodeIndex sender) sender.senderType
    commit.proposals
  pure (groupContextAfterExtensions state.groupContext (groupProposals allProposals))

/-- The leaves a commit brings in list the extension types of the context it leads to. -/
def LeavesListExtensions (state : ClientState cs.signature) (sender : Sender) (commit : Commit) :
    Prop :=
  ∀ leaves context, commitLeaves state sender commit = .ok leaves →
    commitContext state sender commit = .ok context →
    ∀ leaf ∈ leaves, extensionsSupportedByCapabilities context.extensions leaf.capabilities = true

/-- Steps of a client whose commits' leaves list the extension types. -/
inductive RequirementsStep (cs : CiphersuiteImpl) (state : ClientState cs.signature) :
    ClientState cs.signature → Prop
  | createCommit {pskIndex : PskIndex} {options : CreateCommitOptions cs.signature}
      {coins : CommitCoins} {currentTime : ℤ} {result : CreateCommitResult cs.signature}
      (created : createCommit cs state pskIndex options coins currentTime = .ok result)
      (listed : ∀ commit, createdCommit state pskIndex options coins currentTime = .ok commit →
        LeavesListExtensions state (.member state.privatePath.leafIndex) commit) :
      RequirementsStep cs state result.newState
  | processMessage {message : MlsHandshakeMessage} {pskIndex : PskIndex}
      {action : IncomingMessageCallback} {currentTime : ℤ} {newState : ClientState cs.signature}
      {committer : AuthenticatedSender}
      (processed : processMessage cs message state pskIndex action currentTime =
        .ok (.newState newState .accept (some committer)))
      (listed : ∀ sender commit, commitIn state message = .ok (some (sender, commit)) →
        LeavesListExtensions state sender commit) : RequirementsStep cs state newState
  | keeps {newState : ClientState cs.signature} (keeps : KeepsEpoch cs state newState) :
      RequirementsStep cs state newState
  /-- Any other operation leaves the tree and the group context as they are. -/
  | other {newState : ClientState cs.signature} (ratchetTree : newState.ratchetTree = state.ratchetTree)
      (groupContext : newState.groupContext = state.groupContext) :
      RequirementsStep cs state newState

theorem nextEpochContext_extensions {gc next : GroupContext} {wireformat : WireformatName}
    {content : FramedContent} {signature updatedTreeHash confirmationTag : Bytes} {h : Hash}
    (hnext : nextEpochContext gc wireformat content signature updatedTreeHash confirmationTag h =
      .ok next) : next.extensions = gc.extensions := by
  obtain ⟨_, rfl⟩ := nextEpochContext_eq_ok hnext
  rfl

theorem GroupSupported.committed {t mid t' : RatchetTree} {grouped : Proposals} {committer : ℕ}
    {path : Option UpdatePath} {extensions : List Extension} (hmid : GroupSupported mid extensions)
    (h : LeavesCommitted t mid t' grouped committer path)
    (hpath : ∀ leaf ∈ pathLeaves path, MeetsRequirements extensions leaf) :
    GroupSupported t' extensions := by
  intro i leaf hi
  rw [leafAt_eq_some, h.path] at hi
  cases path with
  | none => exact hmid i leaf (leafAt_eq_some.mpr hi)
  | some path =>
    simp only [withPathLeaf] at hi
    by_cases heq : i = committer
    · rw [heq, Function.update_self] at hi
      obtain rfl := Node.leaf.inj (Option.some.inj hi)
      exact hpath _ (by simp [pathLeaves])
    · rw [Function.update_of_ne heq] at hi
      exact hmid i leaf (leafAt_eq_some.mpr hi)

/-- The committer's path leaf has been checked, or lists what the leaf before listed. -/
theorem createCommitPath_required {res : ApplyProposalsResult}
    {patch : Option (ResolvedLeafNodePatch cs.signature)} {coins : PathCoins} {path : CommitPath cs}
    (hmid : GroupSupported res.tree
      (groupContextWithExtensions state.groupContext res.additionalResult).extensions)
    (h : createCommitPath cs state res patch coins = .ok path) :
    ∀ leaf ∈ pathLeaves path.updatePath, requiredCapabilitiesError leaf
      (groupContextWithExtensions state.groupContext res.additionalResult).extensions =
      .ok none := by
  unfold createCommitPath at h
  dsimp only at h
  split at h
  · split_ifs at h
    · obtain ⟨created, hcreate, h⟩ := bind_eq_ok.mp h
      obtain rfl := Except.ok.inj h
      obtain ⟨original, horiginal, -, hcap, -⟩ := createUpdatePath_leaf hcreate
      have hleaf : leafAt res.tree state.privatePath.leafIndex = some original := by
        rw [leafAt_eq_some, leafSlots, slot_eq_getElem?, Option.join_eq_some_iff]
        exact horiginal
      have hmeets := (hmid _ original hleaf).congr hcap
      simpa [pathLeaves, CreatedPath.commitPath] using hmeets.required
    · obtain rfl := Except.ok.inj h
      simp [pathLeaves]
  · obtain ⟨created, hcreate, h⟩ := bind_eq_ok.mp h
    obtain ⟨err, hvalid, h⟩ := bind_eq_ok.mp h
    obtain ⟨_, hnone, h⟩ := bind_eq_ok.mp h
    obtain rfl := Except.ok.inj h
    rw [throwIfDefined_eq_ok.mp hnone] at hvalid
    obtain ⟨-, -, hrequired, -, -⟩ :=
      (validateLeafNodeCommon_accepts_iff ..).mp (validateLeafNodeUpdateOrCommit_common hvalid)
    simpa [pathLeaves, CreatedPath.commitPath] using hrequired

/-- What a state of such a run keeps. -/
structure RequirementsMet {s : Signature} (state : ClientState s) : Prop where
  full : FullTree state.ratchetTree
  supported : GroupSupported state.ratchetTree state.groupContext.extensions

theorem RequirementsMet.step {newState : ClientState cs.signature} (h : RequirementsMet state)
    (hstep : RequirementsStep cs state newState) : RequirementsMet newState := by
  cases hstep with
  | createCommit created listed =>
    obtain ⟨p, hbundles, hcreates⟩ := createCommit_parts created
    obtain ⟨hfull, allProposals, hall, hcommitted⟩ := hcreates.leaves h.full
    have hcontext := applyProposals_context hall hcreates.applied
    have hlisted := listed _ (hcreates.createdCommit_eq hbundles) _ _
      (bind_eq_ok.mpr ⟨allProposals, hall, rfl⟩) (bind_eq_ok.mpr ⟨allProposals, hall, rfl⟩)
    rw [List.forall_mem_append] at hlisted
    have hmid := GroupSupported.applyProposals h.full h.supported hall hcreates.applied hlisted.1
    refine ⟨hfull, ?_⟩
    rw [nextEpochContext_extensions hcreates.groupContext, hcontext]
    refine hmid.committed hcommitted fun leaf hleaf => ⟨hlisted.2 leaf hleaf, ?_⟩
    rw [← hcontext] at hmid ⊢
    exact createCommitPath_required hmid hcreates.path leaf hleaf
  | processMessage processed listed =>
    cases processMessage_processed processed with
    | removed current => exact ⟨h.full, h.supported⟩
    | followed current f content commit follows =>
      obtain ⟨hfull, allProposals, committer, hall, -, hcommitted⟩ := follows.leaves h.full
      obtain ⟨_, mid, keys, hall', hsteps, -, -, -⟩ := follows.steps
      obtain rfl := Except.ok.inj (hall.symm.trans hall')
      have hcontext := applyProposals_context hall follows.applied
      have hlisted := listed _ _ (commitIn_eq content commit) _ _
        (bind_eq_ok.mpr ⟨allProposals, hall, rfl⟩) (bind_eq_ok.mpr ⟨allProposals, hall, rfl⟩)
      rw [List.forall_mem_append] at hlisted
      have hmid := GroupSupported.applyProposals h.full h.supported hall follows.applied hlisted.1
      obtain ⟨-, hnext, -, -⟩ := deriveNextEpoch_eq_ok follows.next
      refine ⟨hfull, ?_⟩
      change GroupSupported _ f.next.groupContext.extensions
      rw [nextEpochContext_extensions hnext, hcontext]
      rw [hcontext] at hsteps
      exact hmid.committed hcommitted fun leaf hleaf =>
        ⟨hlisted.2 leaf hleaf, hsteps.required leaf (List.mem_append_right _ hleaf)⟩
  | keeps keeps =>
    refine ⟨keeps.ratchetTree_eq ▸ h.full, ?_⟩
    rw [keeps.ratchetTree_eq, keeps.groupContext_eq]
    exact h.supported
  | other ratchetTree groupContext =>
    exact ⟨ratchetTree ▸ h.full, by rw [ratchetTree, groupContext]; exact h.supported⟩

end

/-- In every run from a group whose creator meets the requirements, by commits whose leaves
list the extension types of the context they lead to, all leaves meet the requirements in
every state. -/
theorem requirements_met_of_run (cs : CiphersuiteImpl) {groupId : Bytes} {keyPackage : KeyPackage}
    {privateKeyPackage : PrivateKeyPackage cs.signature} {extensions : List Extension}
    {clientConfig : ClientConfig} {epochSecret : Bytes} {start state : ClientState cs.signature}
    (hcreated : createGroup cs groupId keyPackage privateKeyPackage extensions clientConfig
      epochSecret = .ok start)
    (hcreator : MeetsRequirements extensions keyPackage.leafNode.leaf)
    (hrun : Relation.ReflTransGen (RequirementsStep cs) start state) :
    GroupSupported state.ratchetTree state.groupContext.extensions := by
  have hstart : RequirementsMet start := by
    obtain ⟨treeHash, -, h⟩ := bind_eq_ok.mp hcreated
    obtain ⟨err, -, h⟩ := bind_eq_ok.mp h
    obtain ⟨_, -, h⟩ := bind_eq_ok.mp h
    obtain ⟨derived, -, h⟩ := bind_eq_ok.mp h
    obtain ⟨secretTree, -, h⟩ := bind_eq_ok.mp h
    obtain rfl := Except.ok.inj h
    refine ⟨⟨0, by omega, rfl⟩, fun i leaf hi => ?_⟩
    rw [leafAt_eq_some, leafSlots, slot_singleton] at hi
    split_ifs at hi
    obtain rfl := Node.leaf.inj (Option.some.inj hi)
    exact hcreator
  have hstate : RequirementsMet state := by
    induction hrun with
    | refl => exact hstart
    | tail _ hstep ih => exact ih.step hstep
  exact hstate.supported

/-! ## A committer that no longer lists an extension type -/

theorem groupSupported_iff {tree : RatchetTree} {extensions : List Extension} :
    GroupSupported tree extensions ↔
      ∀ leaf ∈ tree.zipIdx.filterMap fun e => if e.2 % 2 = 0 then leafOf e.1 else none,
        MeetsRequirements extensions leaf := by
  have hmem {leaf : LeafNode} : (∃ i, leafAt tree i = some leaf) ↔
      leaf ∈ tree.zipIdx.filterMap fun e => if e.2 % 2 = 0 then leafOf e.1 else none := by
    simp only [leafAt_eq_some, leafSlots, slot_eq_getElem?, InOrder.index_zero,
      Option.join_eq_some_iff, List.mem_filterMap, Prod.exists, List.mem_zipIdx_iff_getElem?]
    constructor
    · rintro ⟨i, hi⟩
      exact ⟨_, 2 * i, hi, by simp⟩
    · rintro ⟨slot, n, hn, hleaf⟩
      split_ifs at hleaf with heven
      rw [leafOf_eq_some] at hleaf
      exact ⟨n / 2, by rw [show 2 * (n / 2) = n by omega, hn, hleaf]⟩
  constructor
  · intro h leaf hleaf
    obtain ⟨i, hi⟩ := hmem.mpr hleaf
    exact h i leaf hi
  · intro h i leaf hi
    exact h leaf (hmem.mp ⟨i, hi⟩)

instance (tree : RatchetTree) (extensions : List Extension) :
    Decidable (GroupSupported tree extensions) := decidable_of_iff _ groupSupported_iff.symm

def groupExtension : Extension := ⟨.number 8545, []⟩

/-- A leaf that lists the group's extension type. -/
def listingLeaf : LeafNode :=
  { plainLeaf 1 with capabilities := { (plainLeaf 1).capabilities with extensions := [8545] } }

def listingKeyPackage : Except MlsError KeyPackage := do
  let plain ← plainKeyPackage 1
  let leafSignature ← signLeafNodeTBS listingLeaf .key_package plainSuite.signature [] [1]
  let tbs : KeyPackageTBS := { plain.tbs with
    leafNode := {
      leaf := { listingLeaf with signature := leafSignature }
      lifetime := { notBefore := 0, notAfter := 0 }
      source := rfl } }
  let encoded ← encodeKeyPackageTBS tbs
  let signature ← signWithLabel plainSuite.signature [] [1] "KeyPackageTBS" encoded
  pure { tbs with signature := signature }

/-- The committer's leaf is to list these extension types. -/
def listingExtensions (extensions : List ℤ) : CreateCommitOptions plainSuite.signature where
  leafNodePatch := some {
    capabilities := some { (plainLeaf 1).capabilities with extensions := extensions } }

/-- Whether the only member of a group meets its requirements, whether the leaves it brings in
list the extension types, and whether the requirements are met afterwards. -/
def extensionsOutcome (extensions : List ℤ) : Except MlsError (Bool × Bool × Bool) := do
  let keyPackage ← listingKeyPackage
  let state ← createGroup plainSuite [] keyPackage (plainPrivateKeys 1) [groupExtension] plainConfig []
  let result ← createCommit plainSuite state emptyPskIndex (listingExtensions extensions)
    (plainCoins [1]) 0
  let commit ← createdCommit state emptyPskIndex (listingExtensions extensions) (plainCoins [1]) 0
  let leaves ← commitLeaves state (.member state.privatePath.leafIndex) commit
  let context ← commitContext state (.member state.privatePath.leafIndex) commit
  pure (decide (MeetsRequirements [groupExtension] keyPackage.leafNode.leaf),
    decide (∀ leaf ∈ leaves,
      extensionsSupportedByCapabilities context.extensions leaf.capabilities = true),
    decide (GroupSupported result.newState.ratchetTree result.newState.groupContext.extensions))

/-- The commit of the only member of a group. -/
structure LoneCommit (extensions : List ℤ) (keyPackage : KeyPackage)
    (state : ClientState plainSuite.signature) (result : CreateCommitResult plainSuite.signature) :
    Prop where
  group : createGroup plainSuite [] keyPackage (plainPrivateKeys 1) [groupExtension] plainConfig [] =
    .ok state
  creator : MeetsRequirements [groupExtension] keyPackage.leafNode.leaf
  created : createCommit plainSuite state emptyPskIndex (listingExtensions extensions)
    (plainCoins [1]) 0 = .ok result

theorem extensionsOutcome_eq_ok {extensions : List ℤ} {listed after : Bool}
    (h : extensionsOutcome extensions = .ok (true, listed, after)) :
    ∃ keyPackage state result commit leaves context,
      LoneCommit extensions keyPackage state result ∧
      createdCommit state emptyPskIndex (listingExtensions extensions) (plainCoins [1]) 0 =
        .ok commit ∧
      commitLeaves state (.member state.privatePath.leafIndex) commit = .ok leaves ∧
      commitContext state (.member state.privatePath.leafIndex) commit = .ok context ∧
      decide (∀ leaf ∈ leaves,
        extensionsSupportedByCapabilities context.extensions leaf.capabilities = true) = listed ∧
      decide (GroupSupported result.newState.ratchetTree
        result.newState.groupContext.extensions) = after := by
  obtain ⟨keyPackage, -, h⟩ := bind_eq_ok.mp h
  obtain ⟨state, hgroup, h⟩ := bind_eq_ok.mp h
  obtain ⟨result, hresult, h⟩ := bind_eq_ok.mp h
  obtain ⟨commit, hcommit, h⟩ := bind_eq_ok.mp h
  obtain ⟨leaves, hleaves, h⟩ := bind_eq_ok.mp h
  obtain ⟨context, hcontext, h⟩ := bind_eq_ok.mp h
  simp only [pure, Except.pure, Except.ok.injEq, Prod.mk.injEq] at h
  exact ⟨keyPackage, state, result, commit, leaves, context,
    ⟨hgroup, of_decide_eq_true h.1, hresult⟩, hcommit, hleaves, hcontext, h.2⟩

/-- The only member of a group drops the group's extension type from its capabilities, and
the commit is created. -/
theorem commit_drops_group_extension : ∃ keyPackage state result,
    LoneCommit [] keyPackage state result ∧
      ¬ GroupSupported result.newState.ratchetTree result.newState.groupContext.extensions := by
  have heval : extensionsOutcome [] = .ok (true, false, false) := by decide +kernel
  obtain ⟨keyPackage, state, result, commit, leaves, context, hcommit, -, -, -, -, hafter⟩ :=
    extensionsOutcome_eq_ok heval
  exact ⟨keyPackage, state, result, hcommit, of_decide_eq_false hafter⟩

/-- It keeps listing the type, and the requirements stay met. -/
theorem commit_keeps_group_extension : ∃ keyPackage state result,
    LoneCommit [8545] keyPackage state result ∧
      GroupSupported result.newState.ratchetTree result.newState.groupContext.extensions := by
  have heval : extensionsOutcome [8545] = .ok (true, true, true) := by decide +kernel
  obtain ⟨keyPackage, state, result, commit, leaves, context, hlone, hcommit, hleaves, hcontext,
    hlisted, -⟩ := extensionsOutcome_eq_ok heval
  refine ⟨keyPackage, state, result, hlone,
    requirements_met_of_run plainSuite hlone.group hlone.creator
      (.single (.createCommit hlone.created fun commit' hcommit' => ?_))⟩
  obtain rfl := Except.ok.inj (hcommit.symm.trans hcommit')
  intro leaves' context' hleaves' hcontext'
  obtain rfl := Except.ok.inj (hleaves.symm.trans hleaves')
  obtain rfl := Except.ok.inj (hcontext.symm.trans hcontext')
  exact of_decide_eq_true hlisted

end WebcryptoMls
