import WebcryptoMls.CommitChecks
import WebcryptoMls.CredentialSupport
import WebcryptoMls.GroupEpochs

/-!
# Removed members

A member whose leaf a commit removes is to learn that it no longer belongs to the group.
The client looks at its place in the tree once all of a member's proposals are applied, so
an Add of the same commit that refills the place hides the Remove. In the commit of a joiner
it does not look.
-/
namespace WebcryptoMls
open FirstFree Transfers

section
variable {cs : CiphersuiteImpl} {client member : ClientState cs.signature}

/-- Two members of one epoch. -/
structure SameEpoch (client member : ClientState cs.signature) : Prop where
  groupContext : client.groupContext = member.groupContext
  ratchetTree : client.ratchetTree = member.ratchetTree
  keySchedule : client.keySchedule = member.keySchedule

theorem SameEpoch.afterReading (h : SameEpoch client member) (message : MlsHandshakeMessage) :
    SameEpoch (afterReading cs client message) (afterReading cs member message) where
  groupContext := h.groupContext
  ratchetTree := h.ratchetTree
  keySchedule := h.keySchedule

/-- A public message is read with what the epoch's members share. -/
theorem SameEpoch.readContent_public (h : SameEpoch client member) (pm : PublicMessage) :
    readContent cs client (.mls_public_message pm) =
      readContent cs member (.mls_public_message pm) := by
  simp only [readContent, h.keySchedule, h.groupContext, h.ratchetTree]

/-! ## Reading a commit -/

/-- The group and the epoch a message is framed for. -/
def FramedFor (groupContext : GroupContext) : MlsHandshakeMessage → Prop
  | .mls_public_message pm => constantTimeEqual pm.content.groupId groupContext.groupId = true ∧
      ¬pm.content.epoch < groupContext.epoch
  | .mls_private_message pm => constantTimeEqual pm.groupId groupContext.groupId = true ∧
      pm.epoch = groupContext.epoch

variable {message : MlsHandshakeMessage} {pskIndex memberPsks : PskIndex}
  {action : IncomingMessageCallback} {currentTime memberTime : ℤ}

theorem framedFor_of_processMessage {r : ProcessMessageResult cs.signature}
    (hcurrent : ¬IsLate member message)
    (h : processMessage cs message member pskIndex action currentTime = .ok r) :
    FramedFor member.groupContext message := by
  cases message with
  | mls_public_message pm =>
    obtain ⟨result, h, -⟩ := bind_eq_ok.mp h
    obtain ⟨_, -, h⟩ := bind_eq_ok.mp h
    split_ifs at h with hgroup hformer
    · obtain ⟨_, -, h⟩ := bind_eq_ok.mp h
      cases h
    · exact ⟨by simpa using hgroup, hformer⟩
  | mls_private_message pm =>
    obtain ⟨_, -, h⟩ := bind_eq_ok.mp h
    split_ifs at h with hgroup hfuture
    · obtain ⟨_, -, h⟩ := bind_eq_ok.mp h
      cases h
    · exact absurd ‹_› hcurrent
    · exact ⟨by simpa using hgroup, le_antisymm (not_lt.mp hfuture) (not_lt.mp ‹_›)⟩

theorem throwIfRemovedFromGroup_active (h : client.groupActiveState = .active) :
    throwIfRemovedFromGroup client = .ok () := by
  rw [throwIfRemovedFromGroup, h]
  rfl

theorem throwIfSuspendedPendingReinit_active (h : client.groupActiveState = .active) (epoch : ℤ)
    (contentType : ContentTypeName) :
    throwIfSuspendedPendingReinit client epoch contentType = .ok () := by
  rw [throwIfSuspendedPendingReinit, h]
  rfl

/-- An active client hands the commit of a message of its epoch to `processCommit`. -/
theorem processMessage_commit {content : AuthenticatedContent} {commit : Commit}
    (pskIndex : PskIndex) (action : IncomingMessageCallback) (currentTime : ℤ)
    (hactive : client.groupActiveState = .active) (hframed : FramedFor client.groupContext message)
    (hread : readContent cs client message = .ok content)
    (hcommit : content.content.info = .commit commit) : ∃ wireformat,
      processMessage cs message client pskIndex action currentTime =
        (processCommit cs (afterReading cs client message) content commit wireformat pskIndex action
          currentTime).map NewStateWithActionTaken.result := by
  have hremoved := throwIfRemovedFromGroup_active hactive
  have hsuspended := throwIfSuspendedPendingReinit_active hactive
  cases message with
  | mls_public_message pm =>
    obtain ⟨hgroup, hepoch⟩ := hframed
    rw [readContent] at hread
    refine ⟨.mls_public_message, ?_⟩
    simp only [processMessage, publicMessageResult, hremoved, ok_bind, hgroup, Bool.not_true,
      Bool.false_eq_true, if_false, hsuspended, if_neg hepoch, hread, hcommit]
    rfl
  | mls_private_message pm =>
    obtain ⟨hgroup, hepoch⟩ := hframed
    obtain ⟨read, hopened, hread⟩ := bind_eq_ok.mp hread
    obtain rfl := Except.ok.inj hread
    refine ⟨.mls_private_message, ?_⟩
    simp only [processMessage, privateMessageResult, hremoved, ok_bind, hgroup, Bool.not_true,
      Bool.false_eq_true, if_false, hsuspended, hepoch, gt_iff_lt, lt_irrefl, currentEpochResult,
      hopened, hcommit, afterReading, readSecretTree]
    rfl

/-- A message of its epoch that it cannot read makes an active client throw. -/
theorem processMessage_unread {e : MlsError} (pskIndex : PskIndex) (action : IncomingMessageCallback)
    (currentTime : ℤ) (hactive : client.groupActiveState = .active)
    (hframed : FramedFor client.groupContext message)
    (hread : readContent cs client message = .error e) :
    processMessage cs message client pskIndex action currentTime = .error e := by
  have hremoved := throwIfRemovedFromGroup_active hactive
  have hsuspended := throwIfSuspendedPendingReinit_active hactive
  cases message with
  | mls_public_message pm =>
    obtain ⟨hgroup, hepoch⟩ := hframed
    rw [readContent] at hread
    simp only [processMessage, publicMessageResult, hremoved, ok_bind, hgroup, Bool.not_true,
      Bool.false_eq_true, if_false, hsuspended, if_neg hepoch, hread, error_bind]
  | mls_private_message pm =>
    obtain ⟨hgroup, hepoch⟩ := hframed
    rw [readContent] at hread
    cases hopened : unprotectPrivateMessage client.keySchedule.senderDataSecret pm
        client.secretTree client.ratchetTree client.groupContext
        client.clientConfig.keyRetentionConfig cs with
    | ok read =>
      rw [hopened] at hread
      cases hread
    | error e' =>
      rw [hopened, error_bind] at hread
      simp only [processMessage, privateMessageResult, hremoved, ok_bind, hgroup, Bool.not_true,
        Bool.false_eq_true, if_false, hsuspended, hepoch, gt_iff_lt, lt_irrefl, currentEpochResult,
        hopened, error_bind]
      rw [Except.error.inj hread]

/-! ## Applying its proposals -/

/-- What a client with this leaf makes of a member's commit: it looks for its leaf. -/
def ApplyProposalsResult.seenBy (result : ApplyProposalsResult) (leafIndex : ℕ) :
    ApplyProposalsResult :=
  { result with selfRemoved := nodeAt result.tree (leafToNodeIndex leafIndex) == none }

theorem accumulatePskSecret_congr {groupedPsk : List PreSharedKeyID} {zeroes : Bytes}
    (h : ∀ id ∈ groupedPsk, pskIndex.findPsk id = memberPsks.findPsk id) :
    accumulatePskSecret groupedPsk pskIndex cs zeroes =
      accumulatePskSecret groupedPsk memberPsks cs zeroes := by
  refine foldlM_congr (fun a ha b => ?_) _
  have hid : a.1 ∈ groupedPsk := by
    obtain ⟨_, _, heq⟩ := List.mem_zipIdx ha
    rw [heq]
    exact List.getElem_mem _
  rw [accumulatePsk, accumulatePsk, h a.1 hid]

variable {proposals : List ProposalOrRef} {allProposals : List ProposalWithSender}
  {grouped : Proposals} {committerLeafIndex : Option ℕ} {sentByClient : Bool}
  {newMemberLeafNode : Option LeafNode} {senderType : SenderTypeName}
  {result : ApplyProposalsResult}

/-- The one applies what the other applies exactly if its own checks pass. -/
theorem SameEpoch.applyMemberProposals (h : SameEpoch client member)
    (hpsks : ∀ id ∈ (groupProposals allProposals).psk.map Sent.proposal,
      pskIndex.findPsk id = memberPsks.findPsk id)
    (hnodup : ((proposedChanges (groupProposals allProposals)).map LeafChange.target).Nodup) :
    FollowsIf (client.clientConfig.keyPackageEqualityConfig.TellsApart client.ratchetTree
        (groupProposals allProposals) ∧
      validateExternalSenders (flattenExtensions (groupProposals
        allProposals).group_context_extensions) client.clientConfig.authService = .ok none ∧
      (receiverMutations client.clientConfig client.groupContext (groupProposals allProposals)
        currentTime).AcceptsLeaves client.ratchetTree (groupProposals allProposals))
      ((applyMemberProposals cs member allProposals (groupProposals allProposals)
        committerLeafIndex memberPsks false memberTime).map
          fun result => result.seenBy client.privatePath.leafIndex)
      (applyMemberProposals cs client allProposals (groupProposals allProposals)
        committerLeafIndex pskIndex false currentTime) := by
  simp only [WebcryptoMls.applyMemberProposals, receiverMutations, h.groupContext, h.ratchetTree,
    accumulatePskSecret_congr hpsks, map_bind]
  refine FollowsIf.of_iff (followsIf_check (fun hvalid => validateProposals_iff hvalid)
    (FollowsIf.bind (followsIf_applyTreeMutations rfl rfl hnodup) fun _ _ => FollowsIf.refl _)) ?_
  simp only [and_assoc, and_true]

/-- A joiner's commit removes nobody in the eyes of the one who applies it. -/
theorem applyExternalProposals_result
    (h : WebcryptoMls.applyExternalProposals cs client allProposals grouped pskIndex
      newMemberLeafNode = .ok result) :
    result.selfRemoved = false ∧ result.allProposals = allProposals := by
  obtain ⟨_, -, h⟩ := bind_eq_ok.mp h
  obtain ⟨_, -, h⟩ := bind_eq_ok.mp h
  obtain ⟨_, -, h⟩ := bind_eq_ok.mp h
  obtain ⟨_, -, h⟩ := bind_eq_ok.mp h
  obtain ⟨priorCredential, -, h⟩ := bind_eq_ok.mp h
  obtain ⟨treeAfterRemove, -, h⟩ := bind_eq_ok.mp h
  obtain ⟨psk, -, h⟩ := bind_eq_ok.mp h
  dsimp only at h
  split at h
  · cases h
  · obtain ⟨externalKeyPair, -, h⟩ := bind_eq_ok.mp h
    obtain ⟨exported, -, h⟩ := bind_eq_ok.mp h
    obtain ⟨externalInitSecret, -, h⟩ := bind_eq_ok.mp h
    obtain ⟨newMemberLeafIndex, -, h⟩ := bind_eq_ok.mp h
    rw [← Except.ok.inj h]
    exact ⟨rfl, rfl⟩

theorem applyReinit_result {reinit : Reinit}
    (h : WebcryptoMls.applyReinit cs client allProposals reinit = .ok result) :
    result.selfRemoved = false ∧ result.allProposals = allProposals := by
  obtain ⟨_, -, h⟩ := bind_eq_ok.mp h
  rw [← Except.ok.inj h]
  exact ⟨rfl, rfl⟩

/-- The application is shown the proposals of the commit. -/
theorem applyProposals_allProposals
    (hall : resolveProposals client committerLeafIndex senderType proposals = .ok allProposals)
    (h : WebcryptoMls.applyProposals cs client proposals committerLeafIndex pskIndex sentByClient
      newMemberLeafNode senderType currentTime = .ok result) :
    result.allProposals = allProposals := by
  obtain ⟨_, hall', -, h⟩ := applyProposals_eq_ok h
  obtain rfl := Except.ok.inj (hall.symm.trans hall')
  obtain ⟨-, h⟩ | ⟨reinit, h⟩ | h := applyGroupedProposals_cases h
  · exact (applyExternalProposals_result h).2
  · exact (applyReinit_result h).2
  · obtain ⟨tree, addedLeafNodes, _, _, -, -, rfl⟩ := applyMemberProposals_eq_ok h
    rfl

/-- Members of one epoch come to the same if their own checks pass, each with its own leaf
to look for. -/
theorem SameEpoch.applyProposals (h : SameEpoch client member)
    (hclient : resolveProposals client committerLeafIndex senderType proposals = .ok allProposals)
    (hmember : resolveProposals member committerLeafIndex senderType proposals = .ok allProposals)
    (hpsks : ∀ id ∈ (groupProposals allProposals).psk.map Sent.proposal,
      pskIndex.findPsk id = memberPsks.findPsk id)
    (hexternal : (groupProposals allProposals).external_init = [])
    (hremove : (groupProposals allProposals).remove ≠ [])
    (happlied : applyProposals cs member proposals committerLeafIndex memberPsks false
      newMemberLeafNode senderType memberTime = .ok result) :
    (ProposalChecks client.clientConfig client.groupContext client.ratchetTree allProposals
        currentTime →
      applyProposals cs client proposals committerLeafIndex pskIndex false newMemberLeafNode
        senderType currentTime = .ok (result.seenBy client.privatePath.leafIndex)) ∧
    ∀ r, applyProposals cs client proposals committerLeafIndex pskIndex false newMemberLeafNode
        senderType currentTime = .ok r →
      ProposalChecks client.clientConfig client.groupContext client.ratchetTree allProposals
        currentTime := by
  have hreinit := reinit_eq_nil_of_remove hmember hexternal hremove happlied
  have hnodup := (applyProposals_targets hmember happlied).1
  obtain ⟨-, hsender, happlied⟩ := (applyProposals_member_iff hmember hexternal hreinit).mp happlied
  have hseen : (WebcryptoMls.applyMemberProposals cs member allProposals (groupProposals allProposals)
      committerLeafIndex memberPsks false memberTime).map
        (fun result => result.seenBy client.privatePath.leafIndex) =
      .ok (result.seenBy client.privatePath.leafIndex) := map_eq_ok.mpr ⟨result, happlied, rfl⟩
  constructor
  · rintro ⟨hcustom, hkeyPackages, hsenders, hleaves⟩
    exact (applyProposals_member_iff hclient hexternal hreinit).mpr ⟨hcustom, hsender,
      (h.applyMemberProposals hpsks hnodup).eq_ok hseen ⟨hkeyPackages, hsenders, hleaves⟩⟩
  · intro r hr
    obtain ⟨hcustom, -, hr⟩ := (applyProposals_member_iff hclient hexternal hreinit).mp hr
    obtain ⟨hkeyPackages, hsenders, hleaves⟩ :=
      (h.applyMemberProposals hpsks hnodup).holds hseen hr
    exact ⟨hcustom, hkeyPackages, hsenders, hleaves⟩

/-- A member's commit adds no more leaves than are free before this one, once its Updates and
Removes are applied. -/
def LeavesFree (tree : RatchetTree) (leafIndex : ℕ) (grouped : Proposals) : Prop :=
  grouped.external_init = [] ∧ grouped.add.length ≤
    freeBelow (afterChanges (leafSlots tree) (proposedChanges grouped)) leafIndex

instance (tree : RatchetTree) (leafIndex : ℕ) (grouped : Proposals) :
    Decidable (LeavesFree tree leafIndex grouped) := inferInstanceAs (Decidable (_ ∧ _))

/-- It takes itself for removed when a member's commit leaves its place free. -/
theorem seenBy_selfRemoved {i : ℕ}
    (hall : resolveProposals member committerLeafIndex senderType proposals = .ok allProposals)
    (hexternal : (groupProposals allProposals).external_init = [])
    (happlied : applyProposals cs member proposals committerLeafIndex memberPsks sentByClient
      newMemberLeafNode senderType currentTime = .ok result)
    (hremoved : ∃ r ∈ (groupProposals allProposals).remove, r.proposal = i) :
    (result.seenBy i).selfRemoved = true ↔
      LeavesFree member.ratchetTree i (groupProposals allProposals) := by
  obtain ⟨r, hr, rfl⟩ := hremoved
  have hremove : (groupProposals allProposals).remove ≠ [] := List.ne_nil_of_mem hr
  have hchange : LeafChange.remove r.proposal ∈ proposedChanges (groupProposals allProposals) :=
    List.mem_append_right _ (List.mem_map_of_mem hr)
  obtain ⟨-, hfills⟩ := applyProposals_leafSlots hall (.inr hremove) happlied
  have hblank : afterChanges (leafSlots member.ratchetTree)
      (proposedChanges (groupProposals allProposals)) r.proposal = none :=
    afterChanges_of_nodup (applyProposals_targets hall happlied).1 hchange
  have hfree : leafSlots result.tree r.proposal = none ↔
      (groupProposals allProposals).add.length ≤ freeBelow
        (afterChanges (leafSlots member.ratchetTree) (proposedChanges (groupProposals allProposals)))
        r.proposal := by
    rw [← List.length_map, ← addedLeaves]
    exact hfills.free_iff hblank
  rw [LeavesFree, ← hfree, leafSlots, ← nodeAt_coord, ← leafToNodeIndex_eq]
  simp [ApplyProposalsResult.seenBy, hexternal]

/-- The leaf of a member that commits stays where it is. -/
theorem credentialAtLeaf_committer {sender : Sender} {i : ℕ} (hsender : sender = .member i)
    (hleaf : leafSlots member.ratchetTree i ≠ none)
    (hall : resolveProposals member (getSenderLeafNodeIndex sender) sender.senderType proposals =
      .ok allProposals)
    (hremove : (groupProposals allProposals).remove ≠ [])
    (happlied : applyProposals cs member proposals (getSenderLeafNodeIndex sender) memberPsks
      sentByClient newMemberLeafNode sender.senderType currentTime = .ok result) :
    credentialAtLeaf result.tree i = credentialAtLeaf member.ratchetTree i := by
  have hnot := (applyProposals_targets hall happlied).2 (by rw [hsender]; rfl) i
    (by rw [hsender]; rfl)
  obtain ⟨-, hfills⟩ := applyProposals_leafSlots hall (.inr hremove) happlied
  have hkept := hfills.keeps (i := i) (by rwa [afterChanges_of_notMem hnot])
  rw [afterChanges_of_notMem hnot] at hkept
  exact credentialAtLeaf_congr hkept

/-! ## Following the commit -/

/-- The path passes exactly if the client accepts its leaf. -/
theorem SameEpoch.validateCommitPath_iff (h : SameEpoch client member) {sender : Sender}
    {path : Option UpdatePath} {addedLeafNodes : List (ℕ × KeyPackage)} {gc : GroupContext}
    (leafIndex : ℕ) (hdata : result.additionalResult = .memberCommit addedLeafNodes gc)
    (hcredential : ∀ i, sender = .member i →
      credentialAtLeaf result.tree i = credentialAtLeaf client.ratchetTree i)
    (hpath : validateCommitPath cs member sender result path = .ok ()) :
    validateCommitPath cs client sender (result.seenBy leafIndex) path = .ok () ↔
      PathCheck client.clientConfig client.ratchetTree sender path := by
  cases path with
  | none => exact ⟨fun _ => nofun, fun _ => rfl⟩
  | some path =>
    cases sender with
    | member i =>
      simp only [validateCommitPath, hdata, committerLeaf, getSenderLeafNodeIndex,
        committerPriorCredential, ApplyProposalsResult.seenBy, h.groupContext] at hpath ⊢
      obtain ⟨err, hvalid, hpath⟩ := bind_eq_ok.mp hpath
      rw [throwIfDefined_eq_ok.mp hpath] at hvalid
      rw [hcredential i rfl] at hvalid ⊢
      constructor
      · intro hclient updatePath j heq hsender
        obtain rfl := Option.some.inj heq
        obtain rfl := Sender.member.inj hsender
        obtain ⟨err, hvalid', hclient⟩ := bind_eq_ok.mp hclient
        rw [throwIfDefined_eq_ok.mp hclient] at hvalid'
        exact (validateLeafNodeUpdateOrCommit_iff hvalid).mp hvalid'
      · intro hcheck
        rw [(validateLeafNodeUpdateOrCommit_iff hvalid).mpr (hcheck path i rfl rfl)]
        rfl
    | _ =>
      simp only [validateCommitPath, hdata, committerLeaf, getSenderLeafNodeIndex] at hpath
      cases hpath

/-- A client that accepts a commit is removed exactly if it applies it, the checks of the path
pass and it takes itself for removed. -/
theorem processCommit_removed_iff {content : AuthenticatedContent} {commit : Commit}
    (wireformat : WireformatName) (hepoch : content.content.epoch = client.groupContext.epoch)
    (haccept : ∀ r, WebcryptoMls.applyProposals cs client commit.proposals
      (getSenderLeafNodeIndex content.content.sender) pskIndex false
      (commit.path.map fun path => path.leafNode.leaf) content.content.sender.senderType
      currentTime = .ok r → action (.commit r.allProposals
        (authenticatedCommitter content.content.sender r.additionalResult)) = .accept) :
    (∃ processed, processCommit cs client content commit wireformat pskIndex action currentTime =
        .ok processed ∧ processed.newState.groupActiveState = .removedFromGroup) ↔
      ∃ r, WebcryptoMls.applyProposals cs client commit.proposals
          (getSenderLeafNodeIndex content.content.sender) pskIndex false
          (commit.path.map fun path => path.leafNode.leaf) content.content.sender.senderType
          currentTime = .ok r ∧
        validateCommitPath cs client content.content.sender r commit.path = .ok () ∧
        (r.needsUpdatePath = true → commit.path ≠ none) ∧ r.selfRemoved = true := by
  unfold processCommit
  rw [if_neg (not_not.mpr hepoch)]
  constructor
  · rintro ⟨processed, h, hremoved⟩
    obtain ⟨r, hr, h⟩ := bind_eq_ok.mp h
    simp only [haccept r hr] at h
    obtain ⟨newState, hnew, h⟩ := bind_eq_ok.mp h
    obtain rfl := Except.ok.inj h
    obtain ⟨hpath, hneeds, ⟨hself, -⟩ | ⟨hself, next, -, rfl⟩⟩ := followCommit_cases hnew
    · exact ⟨r, hr, hpath, hneeds, hself⟩
    · exact absurd hremoved (nextGroupActiveState_of_member hself)
  · rintro ⟨r, hr, hpath, hneeds, hself⟩
    have hfollowed : followCommit cs client content commit wireformat r =
        .ok (removedState client) := by
      rw [followCommit, hpath, ok_bind, if_neg fun h => hneeds h.1 h.2, if_pos hself]
      rfl
    simp only [hr, ok_bind, haccept r hr, hfollowed]
    exact ⟨_, rfl, rfl⟩

/-- A commit that takes the client out of its group: a member of the client's epoch follows
it, the client has the proposals and the keys it refers to, and reads what the member does if
it can read it. -/
structure RemovingCommit (cs : CiphersuiteImpl) (client member : ClientState cs.signature)
    (message : MlsHandshakeMessage) (pskIndex memberPsks : PskIndex)
    (allProposals : List ProposalWithSender) : Prop where
  active : client.groupActiveState = .active
  sameEpoch : SameEpoch client member
  followed : ∃ action memberTime newState committer,
    processMessage cs message member memberPsks action memberTime =
      .ok (.newState newState .accept (some committer)) ∧
    newState.groupActiveState ≠ .removedFromGroup
  reads : ∀ content memberContent, readContent cs client message = .ok content →
    readContent cs member message = .ok memberContent → content = memberContent
  proposals : ∀ sender commit, commitIn member message = .ok (some (sender, commit)) →
    resolveProposals client (getSenderLeafNodeIndex sender) sender.senderType commit.proposals =
      .ok allProposals ∧
    resolveProposals member (getSenderLeafNodeIndex sender) sender.senderType commit.proposals =
      .ok allProposals
  psks : ∀ id ∈ (groupProposals allProposals).psk.map Sent.proposal,
    pskIndex.findPsk id = memberPsks.findPsk id
  removes : ∃ r ∈ (groupProposals allProposals).remove, r.proposal = client.privatePath.leafIndex

/-- The client can read the commit, and its own checks of the proposals and the path pass. -/
def OwnChecks (client : ClientState cs.signature) (message : MlsHandshakeMessage)
    (allProposals : List ProposalWithSender) (currentTime : ℤ) : Prop :=
  ∃ sender commit, commitIn client message = .ok (some (sender, commit)) ∧
    ProposalChecks client.clientConfig client.groupContext client.ratchetTree allProposals
      currentTime ∧
    PathCheck client.clientConfig client.ratchetTree sender commit.path

section
variable {f : FollowedCommit cs}

/-- What a commit that a member follows comes to: the client applies it and its path passes,
exactly if its own checks do. -/
theorem FollowedCommit.Follows.checks (hfollows : f.Follows member memberPsks memberTime)
    (currentTime : ℤ) (hsame : SameEpoch client member)
    (hleaf : ∀ i, f.content.content.sender = .member i → leafSlots member.ratchetTree i ≠ none)
    (hclient : resolveProposals client (getSenderLeafNodeIndex f.content.content.sender)
      f.content.content.sender.senderType f.commit.proposals = .ok allProposals)
    (hmember : resolveProposals member (getSenderLeafNodeIndex f.content.content.sender)
      f.content.content.sender.senderType f.commit.proposals = .ok allProposals)
    (hpsks : ∀ id ∈ (groupProposals allProposals).psk.map Sent.proposal,
      pskIndex.findPsk id = memberPsks.findPsk id)
    (hexternal : (groupProposals allProposals).external_init = [])
    (hremove : (groupProposals allProposals).remove ≠ []) :
    (∀ r, WebcryptoMls.applyProposals cs client f.commit.proposals
        (getSenderLeafNodeIndex f.content.content.sender) pskIndex false
        (f.commit.path.map fun path => path.leafNode.leaf) f.content.content.sender.senderType
        currentTime = .ok r ↔
      ProposalChecks client.clientConfig client.groupContext client.ratchetTree allProposals
        currentTime ∧ r = f.applied.seenBy client.privatePath.leafIndex) ∧
    (WebcryptoMls.validateCommitPath cs client f.content.content.sender
        (f.applied.seenBy client.privatePath.leafIndex) f.commit.path = .ok () ↔
      PathCheck client.clientConfig client.ratchetTree f.content.content.sender f.commit.path) := by
  obtain ⟨hpasses, hpassed⟩ :=
    hsame.applyProposals hclient hmember hpsks hexternal hremove hfollows.applied
  constructor
  · intro r
    constructor
    · intro hr
      have hchecks := hpassed r hr
      exact ⟨hchecks, Except.ok.inj (hr.symm.trans (hpasses hchecks))⟩
    · rintro ⟨hchecks, rfl⟩
      exact hpasses hchecks
  · have hreinit := reinit_eq_nil_of_remove hmember hexternal hremove hfollows.applied
    obtain ⟨-, -, happlied⟩ :=
      (applyProposals_member_iff hmember hexternal hreinit).mp hfollows.applied
    obtain ⟨tree, addedLeafNodes, _, _, -, -, hresult⟩ := applyMemberProposals_eq_ok happlied
    refine hsame.validateCommitPath_iff _ (congrArg ApplyProposalsResult.additionalResult hresult)
      (fun i hsender => ?_) hfollows.path
    rw [hsame.ratchetTree]
    exact credentialAtLeaf_committer hsender (hleaf i hsender) hmember hremove hfollows.applied

/-- Behind the reading of the commit: when the client learns that it is removed. -/
theorem FollowedCommit.Follows.learns (hfollows : f.Follows member memberPsks memberTime)
    (currentTime : ℤ) (hsame : SameEpoch client member)
    (hleaf : ∀ i, f.content.content.sender = .member i → leafSlots member.ratchetTree i ≠ none)
    (hclient : resolveProposals client (getSenderLeafNodeIndex f.content.content.sender)
      f.content.content.sender.senderType f.commit.proposals = .ok allProposals)
    (hmember : resolveProposals member (getSenderLeafNodeIndex f.content.content.sender)
      f.content.content.sender.senderType f.commit.proposals = .ok allProposals)
    (hpsks : ∀ id ∈ (groupProposals allProposals).psk.map Sent.proposal,
      pskIndex.findPsk id = memberPsks.findPsk id)
    (hremoves : ∃ r ∈ (groupProposals allProposals).remove,
      r.proposal = client.privatePath.leafIndex)
    (haccept : ∀ committer, action (.commit allProposals committer) = .accept)
    (wireformat : WireformatName) :
    (∃ processed, processCommit cs client f.content f.commit wireformat pskIndex action
        currentTime = .ok processed ∧
      processed.newState.groupActiveState = .removedFromGroup) ↔
    (ProposalChecks client.clientConfig client.groupContext client.ratchetTree allProposals
        currentTime ∧
      PathCheck client.clientConfig client.ratchetTree f.content.content.sender f.commit.path) ∧
    LeavesFree client.ratchetTree client.privatePath.leafIndex (groupProposals allProposals) := by
  have hepoch : f.content.content.epoch = client.groupContext.epoch := by
    rw [hfollows.epoch, hsame.groupContext]
  rw [processCommit_removed_iff wireformat hepoch fun r hr =>
    applyProposals_allProposals hclient hr ▸ haccept _]
  have hremove : (groupProposals allProposals).remove ≠ [] :=
    List.ne_nil_of_mem hremoves.choose_spec.1
  by_cases hexternal : (groupProposals allProposals).external_init = []
  · obtain ⟨happlied, hpath⟩ :=
      hfollows.checks currentTime hsame hleaf hclient hmember hpsks hexternal hremove
    have hseen := seenBy_selfRemoved hmember hexternal hfollows.applied hremoves
    rw [← hsame.ratchetTree] at hseen
    simp only [happlied, ← hseen, ← hpath]
    constructor
    · rintro ⟨r, ⟨hchecks, rfl⟩, hvalid, -, hself⟩
      exact ⟨⟨hchecks, hvalid⟩, hself⟩
    · rintro ⟨⟨hchecks, hvalid⟩, hself⟩
      exact ⟨_, ⟨hchecks, rfl⟩, hvalid, hfollows.needsUpdatePath, hself⟩
  · -- Under a joiner's commit the client does not look, so both sides fail.
    constructor
    · rintro ⟨r, hr, -, -, hself⟩
      obtain ⟨_, hall, -, happlied⟩ := applyProposals_eq_ok hr
      obtain rfl := Except.ok.inj (hclient.symm.trans hall)
      simp only [applyGroupedProposals] at happlied
      rw [if_pos (List.length_pos_iff.mpr hexternal)] at happlied
      split_ifs at happlied
      rw [(applyExternalProposals_result happlied).1] at hself
      cases hself
    · rintro ⟨-, hnil, -⟩
      exact absurd hnil hexternal

end

/-- A member that follows a commit of another has passed its own checks. -/
theorem ownChecks_of_followed {newState : ClientState cs.signature} {committer : AuthenticatedSender}
    (hprocessed : processMessage cs message member memberPsks action currentTime =
      .ok (.newState newState .accept (some committer)))
    (hremains : newState.groupActiveState ≠ .removedFromGroup)
    (hmember : ∀ sender commit, commitIn member message = .ok (some (sender, commit)) →
      resolveProposals member (getSenderLeafNodeIndex sender) sender.senderType commit.proposals =
        .ok allProposals)
    (hexternal : (groupProposals allProposals).external_init = [])
    (hremove : (groupProposals allProposals).remove ≠ []) :
    OwnChecks member message allProposals currentTime := by
  cases processMessage_processed hprocessed with
  | removed current => exact absurd rfl hremains
  | followed current f content commit follows =>
    have hcommit := commitIn_eq content commit
    have hall := hmember _ _ hcommit
    have hleaf : ∀ i, f.content.content.sender = .member i →
        leafSlots member.ratchetTree i ≠ none := fun i hsender => by
      obtain ⟨leaf, hleaf⟩ := readContent_sender content hsender
      rw [hleaf]
      exact Option.some_ne_none _
    obtain ⟨happlied, hpath⟩ := follows.checks currentTime ⟨rfl, rfl, rfl⟩ hleaf hall hall
      (fun _ _ => rfl) hexternal hremove
    exact ⟨_, _, hcommit, ((happlied _).mp follows.applied).1, hpath.mp follows.path⟩

/-- Of a public message, one with the same configuration has passed them too. -/
theorem OwnChecks.of_sameEpoch {pm : PublicMessage} (h : SameEpoch client member)
    (hconfig : client.clientConfig = member.clientConfig)
    (hchecks : OwnChecks member (.mls_public_message pm) allProposals currentTime) :
    OwnChecks client (.mls_public_message pm) allProposals currentTime := by
  obtain ⟨sender, commit, hcommit, hproposals, hpath⟩ := hchecks
  refine ⟨sender, commit, ?_, ?_, ?_⟩
  · simpa only [commitIn, h.readContent_public] using hcommit
  · rwa [hconfig, h.groupContext, h.ratchetTree]
  · rwa [hconfig, h.ratchetTree]

end

section
variable (cs : CiphersuiteImpl)

/-- The client learns that it is removed where its own checks of the commit pass, the commit
is a member's and it adds no more leaves than are free before the client's own, and nowhere
else. -/
theorem removed_client_learns {client member : ClientState cs.signature}
    {message : MlsHandshakeMessage} {pskIndex memberPsks : PskIndex} {currentTime : ℤ}
    {allProposals : List ProposalWithSender} {action : IncomingMessageCallback}
    (h : RemovingCommit cs client member message pskIndex memberPsks allProposals)
    (haccept : ∀ committer, action (.commit allProposals committer) = .accept) :
    (∃ r, processMessage cs message client pskIndex action currentTime = .ok r ∧
      r.state.groupActiveState = .removedFromGroup) ↔
    OwnChecks client message allProposals currentTime ∧
      LeavesFree client.ratchetTree client.privatePath.leafIndex (groupProposals allProposals) := by
  obtain ⟨memberAction, memberTime, memberNew, committer, hprocessed, hremains⟩ := h.followed
  cases processMessage_processed hprocessed with
  | removed current => exact absurd rfl hremains
  | followed current f content commit follows =>
    have hframed := framedFor_of_processMessage current hprocessed
    rw [← h.sameEpoch.groupContext] at hframed
    cases hread : readContent cs client message with
    | error e =>
      rw [processMessage_unread pskIndex action currentTime h.active hframed hread]
      simp [OwnChecks, commitIn, hread]
    | ok read =>
      obtain rfl := h.reads _ _ hread content
      obtain ⟨wireformat, heq⟩ :=
        processMessage_commit pskIndex action currentTime h.active hframed hread commit
      obtain ⟨hclient, hmember⟩ := h.proposals _ _ (commitIn_eq content commit)
      have hleaf : ∀ i, f.content.content.sender = .member i →
          leafSlots member.ratchetTree i ≠ none := fun i hsender => by
        obtain ⟨leaf, hleaf⟩ := readContent_sender content hsender
        rw [hleaf]
        exact Option.some_ne_none _
      have hlearns := follows.learns currentTime (h.sameEpoch.afterReading message) hleaf hclient
        hmember h.psks h.removes haccept wireformat
      have hchecks : OwnChecks client message allProposals currentTime ↔
          ProposalChecks client.clientConfig client.groupContext client.ratchetTree allProposals
            currentTime ∧
          PathCheck client.clientConfig client.ratchetTree f.content.content.sender
            f.commit.path := by
        simp [OwnChecks, commitIn_eq hread commit]
      rw [hchecks, heq]
      refine Iff.trans ?_ hlearns
      constructor
      · rintro ⟨r, hr, hremoved⟩
        obtain ⟨processed, hprocessed, rfl⟩ := map_eq_ok.mp hr
        exact ⟨processed, hprocessed, hremoved⟩
      · rintro ⟨processed, hprocessed, hremoved⟩
        exact ⟨_, map_eq_ok.mpr ⟨processed, hprocessed, rfl⟩, hremoved⟩

end

/-! ## A commit that refills the leaf it blanks -/

theorem joinGroup_clientConfig {cs : CiphersuiteImpl} {welcome : Welcome} {keyPackage : KeyPackage}
    {privateKeys : PrivateKeyPackage cs.signature} {pskSearch : PskIndex}
    {options : JoinOptions cs.signature} {currentTime : ℤ} {state : ClientState cs.signature}
    (h : joinGroup cs welcome keyPackage privateKeys pskSearch options currentTime = .ok state) :
    state.clientConfig = options.clientConfig ∧ state.groupActiveState = .active := by
  obtain ⟨opened, tree, result, -, -, -, hentered, rfl⟩ := joinGroup_eq_ok h
  obtain ⟨newLeaf, -, hentered⟩ := bind_eq_ok.mp hentered
  obtain ⟨updatedPkp, -, hentered⟩ := bind_eq_ok.mp hentered
  obtain ⟨derived, -, hentered⟩ := bind_eq_ok.mp hentered
  obtain ⟨confirmationTagVerified, -, hentered⟩ := bind_eq_ok.mp hentered
  split_ifs at hentered
  obtain ⟨secretTree, -, hentered⟩ := bind_eq_ok.mp hentered
  rw [← Except.ok.inj hentered]
  exact ⟨rfl, rfl⟩

/-- A member of a group of three joins it. -/
def joinThree (group : CreateCommitResult plainSuite.signature) (id : UInt8) :
    Except MlsError (ClientState plainSuite.signature) := do
  let keyPackage ← plainKeyPackage id
  match group.welcome with
  | none => throw (usageError "No member was added")
  | some welcome => joinGroup plainSuite welcome keyPackage (plainPrivateKeys id) emptyPskIndex {
      ratchetTree := some group.newState.ratchetTree
      clientConfig := plainConfig } 0

/-- The first member removes the second and adds others; the second and the third receive
the commit. -/
structure Removal where
  client : ClientState plainSuite.signature
  member : ClientState plainSuite.signature
  message : MlsHandshakeMessage

def removal (added : List UInt8) : Except MlsError Removal := do
  let group ← plainGroupOf 1 [2, 3]
  let client ← joinThree group 2
  let member ← joinThree group 3
  let keyPackages ← added.mapM plainKeyPackage
  let committed ← createCommit plainSuite group.newState emptyPskIndex {
    wireAsPublicMessage := true
    extraProposals := .remove 1 :: keyPackages.map .add } (plainCoins [1]) 0
  match committed.commit.content with
  | .mls_public_message pm =>
    pure { client := client, member := member, message := .mls_public_message pm }
  | _ => throw (usageError "Not a public message")

/-- Whether a client has followed a commit into the next epoch. -/
def followsCommit {sig : Signature} : ProcessMessageResult sig → Bool
  | .newState newState .accept (some _) => decide (newState.groupActiveState ≠ .removedFromGroup)
  | _ => false

theorem followsCommit_eq_true {sig : Signature} {r : ProcessMessageResult sig}
    (h : followsCommit r = true) : ∃ newState committer,
      r = .newState newState .accept (some committer) ∧
      newState.groupActiveState ≠ .removedFromGroup := by
  unfold followsCommit at h
  split at h
  · exact ⟨_, _, rfl, of_decide_eq_true h⟩
  · cases h

/-- Whether a client has learnt that it is removed. -/
def learnsRemoval {sig : Signature} : Except MlsError (ProcessMessageResult sig) → Bool
  | .ok r => decide (r.state.groupActiveState = .removedFromGroup)
  | .error _ => false

theorem learnsRemoval_iff {sig : Signature} {x : Except MlsError (ProcessMessageResult sig)} :
    learnsRemoval x = true ↔ ∃ r, x = .ok r ∧ r.state.groupActiveState = .removedFromGroup := by
  cases x <;> simp [learnsRemoval]

/-- Whether the third member follows the commit and the second can, whether the second's leaf
stays free, and whether it learns that it is removed. -/
def removalOutcome (added : List UInt8) : Except MlsError (Bool × Bool × Bool) := do
  let r ← removal added
  let followed ← processMessage plainSuite r.message r.member emptyPskIndex acceptAll 0
  let committed ← commitIn r.member r.message
  match committed with
  | none => throw (usageError "Not a commit")
  | some (sender, commit) => do
    let allProposals ← resolveProposals r.member (getSenderLeafNodeIndex sender) sender.senderType
      commit.proposals
    let clientProposals ← resolveProposals r.client (getSenderLeafNodeIndex sender)
      sender.senderType commit.proposals
    pure (followsCommit followed && decide (r.client.groupContext = r.member.groupContext) &&
        decide (r.client.ratchetTree = r.member.ratchetTree) &&
        decide (r.client.keySchedule = r.member.keySchedule) &&
        decide (clientProposals = allProposals) &&
        decide ((groupProposals allProposals).psk = []) &&
        decide ((groupProposals allProposals).external_init = []) &&
        (groupProposals allProposals).remove.any fun remove =>
          remove.proposal == r.client.privatePath.leafIndex,
      decide (LeavesFree r.client.ratchetTree r.client.privatePath.leafIndex
        (groupProposals allProposals)),
      learnsRemoval (processMessage plainSuite r.message r.client emptyPskIndex acceptAll 0))

theorem joinThree_clientConfig {group : CreateCommitResult plainSuite.signature} {id : UInt8}
    {state : ClientState plainSuite.signature} (h : joinThree group id = .ok state) :
    state.clientConfig = plainConfig ∧ state.groupActiveState = .active := by
  obtain ⟨keyPackage, -, h⟩ := bind_eq_ok.mp h
  split at h
  · cases h
  · exact joinGroup_clientConfig h

theorem removal_eq_ok {added : List UInt8} {r : Removal} (h : removal added = .ok r) :
    (∃ group, joinThree group 2 = .ok r.client ∧ joinThree group 3 = .ok r.member) ∧
      ∃ pm, r.message = .mls_public_message pm := by
  obtain ⟨group, -, h⟩ := bind_eq_ok.mp h
  obtain ⟨client, hclient, h⟩ := bind_eq_ok.mp h
  obtain ⟨member, hmember, h⟩ := bind_eq_ok.mp h
  obtain ⟨keyPackages, -, h⟩ := bind_eq_ok.mp h
  obtain ⟨committed, -, h⟩ := bind_eq_ok.mp h
  split at h
  · obtain rfl := Except.ok.inj h
    exact ⟨⟨group, hclient, hmember⟩, _, rfl⟩
  · cases h

theorem removalOutcome_eq_ok {added : List UInt8} {free learns : Bool}
    (h : removalOutcome added = .ok (true, free, learns)) : ∃ (r : Removal)
      (allProposals : List ProposalWithSender),
      RemovingCommit plainSuite r.client r.member r.message emptyPskIndex emptyPskIndex
        allProposals ∧
      OwnChecks r.client r.message allProposals 0 ∧
      decide (LeavesFree r.client.ratchetTree r.client.privatePath.leafIndex
        (groupProposals allProposals)) = free ∧
      learnsRemoval (processMessage plainSuite r.message r.client emptyPskIndex acceptAll 0) =
        learns := by
  obtain ⟨r, hr, h⟩ := bind_eq_ok.mp h
  obtain ⟨followed, hfollowed, h⟩ := bind_eq_ok.mp h
  obtain ⟨committed, hcommitted, h⟩ := bind_eq_ok.mp h
  split at h
  · cases h
  · rename_i sender commit
    obtain ⟨allProposals, hall, h⟩ := bind_eq_ok.mp h
    obtain ⟨clientProposals, hclient, h⟩ := bind_eq_ok.mp h
    simp only [pure, Except.pure, Except.ok.injEq, Prod.mk.injEq, Bool.and_eq_true,
      decide_eq_true_eq, List.any_eq_true, beq_iff_eq] at h
    obtain ⟨hpremises, hfree, hlearns⟩ := h
    obtain ⟨⟨⟨⟨⟨⟨⟨hfollows, hcontext⟩, htree⟩, hschedule⟩, rfl⟩, hpsks⟩, hexternal⟩, hremoves⟩ :=
      hpremises
    obtain ⟨⟨group, hclientJoined, hmemberJoined⟩, pm, hpublic⟩ := removal_eq_ok hr
    obtain ⟨hclientConfig, hactive⟩ := joinThree_clientConfig hclientJoined
    have hconfig := hclientConfig.trans (joinThree_clientConfig hmemberJoined).1.symm
    obtain ⟨newState, committer, rfl, hremains⟩ := followsCommit_eq_true hfollows
    have hsame : SameEpoch r.client r.member := ⟨hcontext, htree, hschedule⟩
    have hresolved : ∀ sender commit, commitIn r.member r.message = .ok (some (sender, commit)) →
        resolveProposals r.client (getSenderLeafNodeIndex sender) sender.senderType
          commit.proposals = .ok clientProposals ∧
        resolveProposals r.member (getSenderLeafNodeIndex sender) sender.senderType
          commit.proposals = .ok clientProposals := fun sender commit h => by
      rw [hcommitted, Except.ok.injEq, Option.some.injEq, Prod.mk.injEq] at h
      obtain ⟨rfl, rfl⟩ := h
      exact ⟨hclient, hall⟩
    have hchecks := ownChecks_of_followed hfollowed hremains
      (fun sender commit h => (hresolved sender commit h).2) hexternal
      (List.ne_nil_of_mem hremoves.choose_spec.1)
    rw [hpublic] at hchecks
    exact ⟨r, clientProposals, {
      active := hactive
      sameEpoch := hsame
      followed := ⟨acceptAll, 0, newState, committer, hfollowed, hremains⟩
      reads := fun content memberContent hread hmemberRead => by
        rw [hpublic, hsame.readContent_public] at hread
        rw [hpublic] at hmemberRead
        exact Except.ok.inj (hread.symm.trans hmemberRead)
      proposals := hresolved
      psks := by simp [hpsks]
      removes := hremoves }, hpublic ▸ hchecks.of_sameEpoch hsame hconfig, hfree, hlearns⟩

/-- The first member removes the second and adds a fourth, whose leaf takes the place. The third
follows and the second's own checks pass, but it does not learn that it is removed. -/
theorem removed_client_not_told : ∃ (client member : ClientState plainSuite.signature)
    (message : MlsHandshakeMessage) (allProposals : List ProposalWithSender),
    RemovingCommit plainSuite client member message emptyPskIndex emptyPskIndex allProposals ∧
      OwnChecks client message allProposals 0 ∧
      ¬∃ r, processMessage plainSuite message client emptyPskIndex acceptAll 0 = .ok r ∧
        r.state.groupActiveState = .removedFromGroup := by
  have heval : removalOutcome [4] = .ok (true, false, false) := by decide +kernel
  obtain ⟨r, allProposals, hcommit, hchecks, -, hlearns⟩ := removalOutcome_eq_ok heval
  refine ⟨r.client, r.member, r.message, allProposals, hcommit, hchecks, fun hremoved => ?_⟩
  rw [learnsRemoval_iff.mpr hremoved] at hlearns
  cases hlearns

/-- It adds nobody, and the second learns. -/
theorem removed_client_told : ∃ (client member : ClientState plainSuite.signature)
    (message : MlsHandshakeMessage) (allProposals : List ProposalWithSender),
    RemovingCommit plainSuite client member message emptyPskIndex emptyPskIndex allProposals ∧
      ∃ r, processMessage plainSuite message client emptyPskIndex acceptAll 0 = .ok r ∧
        r.state.groupActiveState = .removedFromGroup := by
  have heval : removalOutcome [] = .ok (true, true, true) := by decide +kernel
  obtain ⟨r, allProposals, hcommit, hchecks, hfree, -⟩ := removalOutcome_eq_ok heval
  exact ⟨r.client, r.member, r.message, allProposals, hcommit,
    (removed_client_learns plainSuite hcommit fun _ => rfl).mpr
      ⟨hchecks, of_decide_eq_true hfree⟩⟩

end WebcryptoMls
