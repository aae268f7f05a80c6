import WebcryptoMls.JoinedTrees
import WebcryptoMls.MessageProcessing

/-!
# Steps from epoch to epoch

What a commit that is created and a message that is processed make of the state. A
commit that is followed starts the next epoch; every other message leaves the group
context as it is.
-/
namespace WebcryptoMls
open Records

/-! ## Creating a commit -/

/-- The intermediate results of `createCommit`. -/
structure CommitParts (cs : CiphersuiteImpl) where
  patch : Option (ResolvedLeafNodePatch cs.signature)
  proposals : List ProposalOrRef
  applied : ApplyProposalsResult
  path : CommitPath cs
  commitSecret : Bytes
  framedContent : FramedContent
  signature : Bytes
  treeHash : Bytes
  epochSecrets : EpochSecrets
  groupInfo : GroupInfo

/-- The results are those of the commit that was created. -/
structure CommitParts.Creates {cs : CiphersuiteImpl} (p : CommitParts cs)
    (state : ClientState cs.signature) (pskIndex : PskIndex)
    (options : CreateCommitOptions cs.signature) (coins : CommitCoins) (currentTime : ℤ)
    (result : CreateCommitResult cs.signature) : Prop where
  active : state.groupActiveState = .active
  applied : applyProposals cs state p.proposals (some state.privatePath.leafIndex) pskIndex true none
    .member currentTime = .ok p.applied
  notExternal : ∀ externalInitSecret newMemberLeafIndex priorCredential, p.applied.additionalResult ≠
    .externalCommit externalInitSecret newMemberLeafIndex priorCredential
  path : createCommitPath cs state p.applied p.patch coins.path = .ok p.path
  commitSecret : commitSecretOf p.path.pathSecrets cs.kdf = .ok p.commitSecret
  groupContext : nextEpochContext
    (groupContextWithExtensions state.groupContext p.applied.additionalResult)
    (commitWireformat options.wireAsPublicMessage) p.framedContent p.signature p.treeHash
    state.confirmationTag cs.hash = .ok result.newState.groupContext
  epochSecrets : initializeEpoch state.keySchedule.initSecret p.commitSecret
    result.newState.groupContext p.applied.pskSecret cs.kdf = .ok p.epochSecrets
  welcome : createWelcome cs result.newState.groupContext p.groupInfo
    (fun encryptedGroupInfo => {
      tree := p.path.tree
      committerLeafIndex := state.privatePath.leafIndex
      pathSecrets := p.path.pathSecrets
      encryptedGroupInfo := encryptedGroupInfo
      joinerSecret := p.epochSecrets.joinerSecret
      pskIds := p.applied.pskIds })
    p.epochSecrets.welcomeSecret (addedLeafNodes p.applied.additionalResult) coins.welcome =
    .ok result.welcome
  privatePath : committerPrivatePath state.privatePath p.path = .ok result.newState.privatePath
  secretTree : createSecretTree (leafWidth p.path.tree.length) p.epochSecrets.encryptionSecret
    cs.kdf = .ok result.newState.secretTree
  keySchedule : result.newState.keySchedule = p.epochSecrets.keySchedule
  ratchetTree : result.newState.ratchetTree = p.path.tree
  historicalReceiverData : result.newState.historicalReceiverData = addHistoricalReceiverData state
  clientConfig : result.newState.clientConfig = state.clientConfig

theorem checkCanSendHandshakeMessages_eq_ok {s : Signature} {state : ClientState s}
    (h : checkCanSendHandshakeMessages state = .ok ()) : state.groupActiveState = .active := by
  unfold checkCanSendHandshakeMessages at h
  split at h
  · cases h
  · cases h
  · assumption

/-- What the results were made of, and the kind of state they led to. -/
structure CommitParts.Bundles {cs : CiphersuiteImpl} (p : CommitParts cs)
    (state : ClientState cs.signature) (options : CreateCommitOptions cs.signature)
    (currentTime : ℤ) (result : CreateCommitResult cs.signature) : Prop where
  patch : options.leafNodePatch.mapM (resolveLeafNodePatch cs) = .ok p.patch
  proposals : ∃ pendingRefs,
    filterPendingProposals cs state options.extraProposals currentTime = .ok pendingRefs ∧
      p.proposals = bundleAllProposals pendingRefs options.extraProposals
  groupActiveState : result.newState.groupActiveState =
    nextGroupActiveState p.applied.selfRemoved p.applied.additionalResult

/-- What the committer signs and sends of them. -/
structure CommitParts.Announces {cs : CiphersuiteImpl} (p : CommitParts cs)
    (state : ClientState cs.signature) (options : CreateCommitOptions cs.signature)
    (coins : CommitCoins) (result : CreateCommitResult cs.signature) : Prop where
  signed : createContentCommitSignature state.groupContext
    (commitWireformat options.wireAsPublicMessage)
    { proposals := p.proposals, path := p.path.updatePath } (.member state.privatePath.leafIndex)
    options.authenticatedData cs.signature coins.signature state.signaturePrivateKey =
      .ok { framedContent := p.framedContent, signature := p.signature }
  treeHash : commitTreeHash p.path = .ok p.treeHash
  confirmationTag : result.newState.confirmationTag =
    createConfirmationTag p.epochSecrets.keySchedule.confirmationKey
      result.newState.groupContext.confirmedTranscriptHash cs.hash
  commit : protectCommit cs options.wireAsPublicMessage state options.authenticatedData
    p.framedContent
    { signature := p.signature, content := .commit result.newState.confirmationTag }
    coins.reuseGuard = .ok result.commit
  groupInfo : ∃ extensions, withRatchetTree options.ratchetTreeExtension p.path.tree
      options.groupInfoExtensions = .ok extensions ∧
    createGroupInfo result.newState.groupContext result.newState.confirmationTag
      state.privatePath.leafIndex extensions cs.signature coins.groupInfo
      result.newState.signaturePrivateKey = .ok p.groupInfo

theorem createCommit_announces {cs : CiphersuiteImpl} {state : ClientState cs.signature}
    {pskIndex : PskIndex} {options : CreateCommitOptions cs.signature} {coins : CommitCoins}
    {currentTime : ℤ} {result : CreateCommitResult cs.signature}
    (h : createCommit cs state pskIndex options coins currentTime = .ok result) :
    ∃ p : CommitParts cs, p.Bundles state options currentTime result ∧
      p.Creates state pskIndex options coins currentTime result ∧
      p.Announces state options coins result := by
  obtain ⟨_, hactive, h⟩ := bind_eq_ok.mp h
  obtain ⟨patch, hpatch, h⟩ := bind_eq_ok.mp h
  obtain ⟨pendingRefs, hpending, h⟩ := bind_eq_ok.mp h
  obtain ⟨applied, happlied, h⟩ := bind_eq_ok.mp h
  dsimp only at h
  split at h
  · cases h
  · rename_i hnot
    obtain ⟨path, hpath, h⟩ := bind_eq_ok.mp h
    obtain ⟨commitSecret, hcommitSecret, h⟩ := bind_eq_ok.mp h
    obtain ⟨signed, hsigned, h⟩ := bind_eq_ok.mp h
    obtain ⟨treeHash, htreeHash, h⟩ := bind_eq_ok.mp h
    obtain ⟨groupContext, hcontext, h⟩ := bind_eq_ok.mp h
    obtain ⟨epochSecrets, hsecrets, h⟩ := bind_eq_ok.mp h
    obtain ⟨commit, hcommit, h⟩ := bind_eq_ok.mp h
    obtain ⟨groupInfoExtensions, hextensions, h⟩ := bind_eq_ok.mp h
    obtain ⟨groupInfo, hinfo, h⟩ := bind_eq_ok.mp h
    obtain ⟨welcome, hwelcome, h⟩ := bind_eq_ok.mp h
    obtain ⟨privateKeys, hkeys, h⟩ := bind_eq_ok.mp h
    obtain ⟨secretTree, htree, h⟩ := bind_eq_ok.mp h
    obtain rfl := Except.ok.inj h
    exact ⟨⟨patch, _, applied, path, commitSecret, signed.framedContent, signed.signature, treeHash,
      epochSecrets, groupInfo⟩, ⟨hpatch, ⟨pendingRefs, hpending, rfl⟩, rfl⟩, {
        active := checkCanSendHandshakeMessages_eq_ok hactive
        applied := happlied
        notExternal := hnot
        path := hpath
        commitSecret := hcommitSecret
        groupContext := hcontext
        epochSecrets := hsecrets
        welcome := hwelcome
        privatePath := hkeys
        secretTree := htree
        keySchedule := rfl
        ratchetTree := rfl
        historicalReceiverData := rfl
        clientConfig := rfl }, {
        signed := hsigned
        treeHash := htreeHash
        confirmationTag := rfl
        commit := hcommit
        groupInfo := ⟨groupInfoExtensions, hextensions, hinfo⟩ }⟩

theorem createCommit_parts {cs : CiphersuiteImpl} {state : ClientState cs.signature}
    {pskIndex : PskIndex} {options : CreateCommitOptions cs.signature} {coins : CommitCoins}
    {currentTime : ℤ} {result : CreateCommitResult cs.signature}
    (h : createCommit cs state pskIndex options coins currentTime = .ok result) :
    ∃ p : CommitParts cs, p.Bundles state options currentTime result ∧
      p.Creates state pskIndex options coins currentTime result := by
  obtain ⟨p, hbundles, hcreates, -⟩ := createCommit_announces h
  exact ⟨p, hbundles, hcreates⟩

theorem createCommit_eq_ok {cs : CiphersuiteImpl} {state : ClientState cs.signature}
    {pskIndex : PskIndex} {options : CreateCommitOptions cs.signature} {coins : CommitCoins}
    {currentTime : ℤ} {result : CreateCommitResult cs.signature}
    (h : createCommit cs state pskIndex options coins currentTime = .ok result) :
    ∃ p : CommitParts cs, p.Creates state pskIndex options coins currentTime result := by
  obtain ⟨p, -, hcreates⟩ := createCommit_parts h
  exact ⟨p, hcreates⟩

/-! ## Processing a message -/

/-- The intermediate results of following a commit. -/
structure FollowedCommit (cs : CiphersuiteImpl) where
  content : AuthenticatedContent
  commit : Commit
  wireformat : WireformatName
  applied : ApplyProposalsResult
  next : NextEpoch

/-- The results are those of the commit that led from `state` to the next epoch. -/
structure FollowedCommit.Follows {cs : CiphersuiteImpl} (f : FollowedCommit cs)
    (state : ClientState cs.signature) (pskSearch : PskIndex) (currentTime : ℤ) : Prop where
  epoch : f.content.content.epoch = state.groupContext.epoch
  applied : applyProposals cs state f.commit.proposals
    (getSenderLeafNodeIndex f.content.content.sender) pskSearch false
    (f.commit.path.map fun path => path.leafNode.leaf) f.content.content.sender.senderType
    currentTime = .ok f.applied
  path : validateCommitPath cs state f.content.content.sender f.applied f.commit.path = .ok ()
  needsUpdatePath : f.applied.needsUpdatePath = true → f.commit.path ≠ none
  notRemoved : f.applied.selfRemoved = false
  next : deriveNextEpoch cs state f.content f.commit f.wireformat f.applied = .ok f.next

theorem deriveNextEpoch_eq_ok {cs : CiphersuiteImpl} {state : ClientState cs.signature}
    {content : AuthenticatedContent} {commit : Commit} {wireformat : WireformatName}
    {result : ApplyProposalsResult} {next : NextEpoch}
    (h : deriveNextEpoch cs state content commit wireformat result = .ok next) :
    applyTreeUpdate cs commit.path content.content.sender result.tree
        (ownPrivatePath state commit.proposals)
        (groupContextWithExtensions state.groupContext result.additionalResult)
        (commitExcludeNodes result) = .ok next.update ∧
      nextEpochContext (groupContextWithExtensions state.groupContext result.additionalResult)
        wireformat content.content content.auth.signature next.update.treeHash
        state.confirmationTag cs.hash = .ok next.groupContext ∧
      initializeEpoch (commitInitSecret state result.additionalResult) next.update.commitSecret
        next.groupContext result.pskSecret cs.kdf = .ok next.epochSecrets ∧
      createSecretTree (leafWidth next.update.tree.length) next.epochSecrets.encryptionSecret cs.kdf =
        .ok next.secretTree := by
  obtain ⟨update, hupdate, h⟩ := bind_eq_ok.mp h
  split at h
  · obtain ⟨updatedGroupContext, hcontext, h⟩ := bind_eq_ok.mp h
    obtain ⟨epochSecrets, hsecrets, h⟩ := bind_eq_ok.mp h
    split_ifs at h
    obtain ⟨secretTree, htree, h⟩ := bind_eq_ok.mp h
    obtain rfl := Except.ok.inj h
    exact ⟨hupdate, hcontext, hsecrets, htree⟩
  · cases h

/-- The state the commit led to. -/
def FollowedCommit.newState {cs : CiphersuiteImpl} (f : FollowedCommit cs)
    (state : ClientState cs.signature) : ClientState cs.signature :=
  nextState state f.commit f.applied f.next

/-- The secret tree once a message of the state's epoch has been read; a public message
is read without it. -/
def readSecretTree (cs : CiphersuiteImpl) (state : ClientState cs.signature) :
    MlsHandshakeMessage → SecretTree
  | .mls_public_message _ => state.secretTree
  | .mls_private_message pm =>
    match unprotectPrivateMessage state.keySchedule.senderDataSecret pm state.secretTree
      state.ratchetTree state.groupContext state.clientConfig.keyRetentionConfig cs with
    | .ok read => read.tree
    | .error _ => state.secretTree

def afterReading (cs : CiphersuiteImpl) (state : ClientState cs.signature)
    (message : MlsHandshakeMessage) : ClientState cs.signature :=
  { state with secretTree := readSecretTree cs state message }

/-- What a message of the state's epoch holds, once its signature is verified. -/
def readContent (cs : CiphersuiteImpl) (state : ClientState cs.signature) :
    MlsHandshakeMessage → Except MlsError AuthenticatedContent
  | .mls_public_message pm =>
    unprotectPublicMessage state.keySchedule.membershipKey state.groupContext state.ratchetTree pm cs
  | .mls_private_message pm => do
    let read ← unprotectPrivateMessage state.keySchedule.senderDataSecret pm state.secretTree
      state.ratchetTree state.groupContext state.clientConfig.keyRetentionConfig cs
    pure read.content

/-- A private message of an epoch behind the state's. -/
def IsLate {sig : Signature} (state : ClientState sig) : MlsHandshakeMessage → Prop
  | .mls_public_message _ => False
  | .mls_private_message pm => pm.epoch < state.groupContext.epoch

/-- What processing a message comes to. -/
inductive Processed (cs : CiphersuiteImpl) (state : ClientState cs.signature) (pskIndex : PskIndex)
    (currentTime : ℤ) : MlsHandshakeMessage → ProcessMessageResult cs.signature → Prop
  | late {pm : PrivateMessage} {receiverData : EpochReceiverData} {read : UnprotectResult}
      {applicationData : Bytes} (former : pm.epoch < state.groupContext.epoch)
      (retained : state.historicalReceiverData.get pm.epoch = some receiverData)
      (contentType : pm.contentType = .application)
      (read_eq : unprotectPrivateMessage receiverData.senderDataSecret pm receiverData.secretTree
        receiverData.ratchetTree receiverData.groupContext state.clientConfig.keyRetentionConfig cs =
        .ok read) :
      Processed cs state pskIndex currentTime (.mls_private_message pm)
        (applicationResult read.content applicationData { state with
          historicalReceiverData := state.historicalReceiverData.set pm.epoch
            { receiverData with secretTree := read.tree } })
  | application {pm : PrivateMessage} {content : AuthenticatedContent} {applicationData : Bytes}
      (current : pm.epoch = state.groupContext.epoch) :
      Processed cs state pskIndex currentTime (.mls_private_message pm)
        (applicationResult content applicationData (afterReading cs state (.mls_private_message pm)))
  | refused {message : MlsHandshakeMessage} (current : ¬IsLate state message) :
      Processed cs state pskIndex currentTime message
        (.newState (afterReading cs state message) .reject none)
  | proposal {message : MlsHandshakeMessage} (unappliedProposals : UnappliedProposals)
      (current : ¬IsLate state message) :
      Processed cs state pskIndex currentTime message (.newState
        { afterReading cs state message with unappliedProposals := unappliedProposals } .accept none)
  | removed {message : MlsHandshakeMessage} {committer : AuthenticatedSender}
      (current : ¬IsLate state message) :
      Processed cs state pskIndex currentTime message
        (.newState (removedState (afterReading cs state message)) .accept (some committer))
  | followed {message : MlsHandshakeMessage} {committer : AuthenticatedSender}
      (current : ¬IsLate state message) (f : FollowedCommit cs)
      (content : readContent cs state message = .ok f.content)
      (commit : f.content.content.info = .commit f.commit)
      (follows : f.Follows (afterReading cs state message) pskIndex currentTime) :
      Processed cs state pskIndex currentTime message
        (.newState (f.newState (afterReading cs state message)) .accept (some committer))

section
variable {cs : CiphersuiteImpl} {state : ClientState cs.signature} {pskIndex : PskIndex}
  {currentTime : ℤ} {message : MlsHandshakeMessage} {content : AuthenticatedContent}
  {action : IncomingMessageCallback}

theorem followCommit_cases {commit : Commit} {wireformat : WireformatName}
    {result : ApplyProposalsResult} {newState : ClientState cs.signature}
    (h : followCommit cs state content commit wireformat result = .ok newState) :
    validateCommitPath cs state content.content.sender result commit.path = .ok () ∧
      (result.needsUpdatePath = true → commit.path ≠ none) ∧
      (result.selfRemoved = true ∧ newState = removedState state ∨
        result.selfRemoved = false ∧ ∃ next,
          deriveNextEpoch cs state content commit wireformat result = .ok next ∧
          newState = nextState state commit result next) := by
  obtain ⟨_, hpath, h⟩ := bind_eq_ok.mp h
  split_ifs at h with hneeds hremoved
  · exact ⟨hpath, fun h h' => hneeds ⟨h, h'⟩, .inl ⟨hremoved, (Except.ok.inj h).symm⟩⟩
  · obtain ⟨next, hnext, h⟩ := bind_eq_ok.mp h
    exact ⟨hpath, fun h h' => hneeds ⟨h, h'⟩,
      .inr ⟨Bool.eq_false_iff.mpr hremoved, next, hnext, (Except.ok.inj h).symm⟩⟩

theorem processCommit_processed {commit : Commit} {wireformat : WireformatName}
    {processed : NewStateWithActionTaken cs.signature} (hcurrent : ¬IsLate state message)
    (hcontent : readContent cs state message = .ok content)
    (hcommit : content.content.info = .commit commit)
    (h : processCommit cs (afterReading cs state message) content commit wireformat pskIndex
      action currentTime = .ok processed) :
    Processed cs state pskIndex currentTime message processed.result := by
  unfold processCommit at h
  split at h
  · cases h
  · rename_i hepoch
    obtain ⟨applied, happlied, h⟩ := bind_eq_ok.mp h
    dsimp only at h
    split at h
    · obtain rfl := Except.ok.inj h
      exact .refused hcurrent
    · obtain ⟨newState, hnew, h⟩ := bind_eq_ok.mp h
      obtain rfl := Except.ok.inj h
      obtain ⟨hpath, hneeds, ⟨-, rfl⟩ | ⟨hremoved, next, hnext, rfl⟩⟩ := followCommit_cases hnew
      · exact .removed hcurrent
      · exact .followed hcurrent ⟨content, commit, wireformat, applied, next⟩ hcontent hcommit {
          epoch := not_not.mp hepoch
          applied := happlied
          path := hpath
          needsUpdatePath := hneeds
          notRemoved := hremoved
          next := hnext }

theorem handleProposal_processed {proposal : Proposal}
    {handled : NewStateWithActionTaken cs.signature} (hcurrent : ¬IsLate state message)
    (h : handleProposal cs (afterReading cs state message) content proposal action
      currentTime = .ok handled) :
    Processed cs state pskIndex currentTime message handled.result := by
  unfold handleProposal at h
  split at h
  · obtain rfl := Except.ok.inj h
    exact .refused hcurrent
  · obtain ⟨newState, hnew, h⟩ := bind_eq_ok.mp h
    obtain rfl := Except.ok.inj h
    obtain ⟨_, -, hnew⟩ := bind_eq_ok.mp hnew
    obtain ⟨_, -, hnew⟩ := bind_eq_ok.mp hnew
    obtain ⟨_, -, hnew⟩ := bind_eq_ok.mp hnew
    obtain ⟨ref, -, hnew⟩ := bind_eq_ok.mp hnew
    obtain rfl := Except.ok.inj hnew
    exact .proposal _ hcurrent

/-- Where a message goes once it is read. -/
inductive Dispatched (cs : CiphersuiteImpl) (state : ClientState cs.signature) (pskIndex : PskIndex)
    (action : IncomingMessageCallback) (currentTime : ℤ) :
    MlsHandshakeMessage → ProcessMessageResult cs.signature → Prop
  | application {message : MlsHandshakeMessage} {content : AuthenticatedContent}
      {applicationData : Bytes} {newState : ClientState cs.signature}
      (processed : Processed cs state pskIndex currentTime message
        (applicationResult content applicationData newState)) :
      Dispatched cs state pskIndex action currentTime message
        (applicationResult content applicationData newState)
  | commit {message : MlsHandshakeMessage} {content : AuthenticatedContent} {commit : Commit}
      {wireformat : WireformatName} {processed : NewStateWithActionTaken cs.signature}
      (current : ¬IsLate state message) (content_eq : readContent cs state message = .ok content)
      (commit_eq : content.content.info = .commit commit)
      (processed_eq : processCommit cs (afterReading cs state message) content commit wireformat
        pskIndex action currentTime = .ok processed) :
      Dispatched cs state pskIndex action currentTime message processed.result
  | proposal {message : MlsHandshakeMessage} {content : AuthenticatedContent} {proposal : Proposal}
      {handled : NewStateWithActionTaken cs.signature} (current : ¬IsLate state message)
      (handled_eq : handleProposal cs (afterReading cs state message) content proposal action
        currentTime = .ok handled) :
      Dispatched cs state pskIndex action currentTime message handled.result

theorem privateMessageResult_dispatched {pm : PrivateMessage}
    {r : ProcessMessageResult cs.signature}
    (h : privateMessageResult cs state pm pskIndex action currentTime = .ok r) :
    Dispatched cs state pskIndex action currentTime (.mls_private_message pm) r := by
  obtain ⟨_, -, h⟩ := bind_eq_ok.mp h
  split_ifs at h with hgroup hfuture hformer
  · obtain ⟨_, -, h⟩ := bind_eq_ok.mp h
    cases h
  · obtain ⟨_, -, h⟩ := bind_eq_ok.mp h
    unfold formerEpochResult at h
    split at h
    · cases h
    · rename_i receiverData hretained
      split_ifs at h with hcontent
      obtain ⟨read, hread, h⟩ := bind_eq_ok.mp h
      split at h
      · obtain rfl := Except.ok.inj h
        exact .application (.late hformer hretained (not_not.mp hcontent) hread)
      · cases h
  · obtain ⟨_, -, h⟩ := bind_eq_ok.mp h
    obtain ⟨read, hread, h⟩ := bind_eq_ok.mp h
    have hcontent : readContent cs state (.mls_private_message pm) = .ok read.content := by
      simp [readContent, hread, pure, Except.pure]
    have hafter : { state with secretTree := read.tree } =
        afterReading cs state (.mls_private_message pm) := by
      simp [afterReading, readSecretTree, hread]
    dsimp only at h
    rw [hafter] at h
    split at h
    · obtain rfl := Except.ok.inj h
      exact .application (.application (le_antisymm (not_lt.mp hfuture) (not_lt.mp hformer)))
    · rename_i hcommit
      obtain ⟨processed, hprocessed, h⟩ := bind_eq_ok.mp h
      obtain rfl := Except.ok.inj h
      exact .commit hformer hcontent hcommit hprocessed
    · obtain ⟨handled, hhandled, h⟩ := bind_eq_ok.mp h
      obtain rfl := Except.ok.inj h
      exact .proposal hformer hhandled

theorem processMessage_dispatched {r : ProcessMessageResult cs.signature}
    (h : processMessage cs message state pskIndex action currentTime = .ok r) :
    Dispatched cs state pskIndex action currentTime message r := by
  cases message with
  | mls_private_message pm => exact privateMessageResult_dispatched h
  | mls_public_message pm =>
    obtain ⟨result, hresult, h⟩ := bind_eq_ok.mp h
    obtain rfl := Except.ok.inj h
    obtain ⟨_, -, hresult⟩ := bind_eq_ok.mp hresult
    split_ifs at hresult with hgroup hformer
    · obtain ⟨_, -, hresult⟩ := bind_eq_ok.mp hresult
      cases hresult
    · obtain ⟨_, -, hresult⟩ := bind_eq_ok.mp hresult
      obtain ⟨content, hcontent, hresult⟩ := bind_eq_ok.mp hresult
      have hcurrent : ¬IsLate state (.mls_public_message pm) := not_false
      split at hresult
      · obtain ⟨_, -, hresult⟩ := bind_eq_ok.mp hresult
        exact .proposal hcurrent hresult
      · rename_i hcommit
        exact .commit hcurrent hcontent hcommit hresult
      · cases hresult

theorem processMessage_processed {r : ProcessMessageResult cs.signature}
    (h : processMessage cs message state pskIndex action currentTime = .ok r) :
    Processed cs state pskIndex currentTime message r := by
  cases processMessage_dispatched h with
  | application processed => exact processed
  | commit current content_eq commit_eq processed_eq =>
    exact processCommit_processed current content_eq commit_eq processed_eq
  | proposal current handled_eq => exact handleProposal_processed current handled_eq

end

end WebcryptoMls
