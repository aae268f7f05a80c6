import WebcryptoMls.Joining

/-!
# Processing messages

What a member does with a message it receives. A private message of a retained epoch
is read with that epoch's secrets; a proposal is kept for a commit; a commit starts
the next epoch, unless it removes the member or the application refuses it.
-/
namespace WebcryptoMls
open Records

/-! ## What the application sees -/

inductive IncomingMessageAction where
  | accept
  | reject
  deriving Repr, DecidableEq

/-- The sender a message was authenticated for. -/
structure AuthenticatedSender where
  senderType : SenderTypeName
  leafIndex : Option ℕ
  deriving Repr, DecidableEq

inductive IncomingMessage where
  | commit (proposals : List ProposalWithSender) (committer : AuthenticatedSender)
  | proposal (proposal : ProposalWithSender)

abbrev IncomingMessageCallback := IncomingMessage → IncomingMessageAction

def acceptAll : IncomingMessageCallback := fun _ => .accept

def defaultIncomingMessageCallback : IncomingMessageCallback
  | .proposal proposal =>
    if proposal.senderType = .new_member_proposal then .reject else .accept
  | .commit _ _ => .accept

def memberSender (sender : Sender) : AuthenticatedSender where
  senderType := sender.senderType
  leafIndex := getSenderLeafNodeIndex sender

inductive ProcessMessageResult (sig : Signature) where
  | newState (newState : ClientState sig) (actionTaken : IncomingMessageAction)
      (committer : Option AuthenticatedSender)
  | applicationMessage (message : Bytes) (newState : ClientState sig)
      (sender : AuthenticatedSender) (authenticatedData : Bytes)

def ProcessMessageResult.state {sig : Signature} : ProcessMessageResult sig → ClientState sig
  | .newState state _ _ => state
  | .applicationMessage _ state _ _ => state

/-! ## Gates -/

variable {sig : Signature}

def throwIfRemovedFromGroup (state : ClientState sig) : Except MlsError Unit :=
  match state.groupActiveState with
  | .removedFromGroup =>
    throw (validationError "Cannot process message, this client was removed from the group")
  | _ => pure ()

/-- Mail of earlier epochs is still read. -/
def throwIfSuspendedPendingReinit (state : ClientState sig) (epoch : ℤ)
    (contentType : ContentTypeName) : Except MlsError Unit :=
  match state.groupActiveState with
  | .suspendedPendingReinit _ =>
    if contentType ≠ .application ∨ epoch = state.groupContext.epoch then
      throw (validationError "Cannot process message, group is suspended pending reinit")
    else pure ()
  | _ => pure ()

/-! ## Own updates -/

/-- The key of the member's own Update among a commit's proposals. -/
def appliedPendingUpdateKey (keys : Option (PendingUpdateKeys sig))
    (proposals : List ProposalOrRef) : Option (PendingUpdateKey sig) :=
  keys.bind fun keys => proposals.findSome? fun p => match p with
    | .reference reference => keys.get reference
    | .proposal _ => none

def withoutPendingUpdateKeys (state : ClientState sig) : ClientState sig :=
  { state with pendingUpdateKeys := none }

/-! ## Commits -/

/-- What a commit's path brings a receiver. -/
structure TreeUpdate where
  pathKeys : Option PrivateKeyPath
  commitSecret : Bytes
  tree : RatchetTree
  treeHash : Bytes

structure UpdatedPrivateKeys where
  pathKeys : PrivateKeyPath
  commitSecret : Bytes

def updatePrivateKeyPath (cs : CiphersuiteImpl) (tree : RatchetTree) (privatePath : PrivateKeyPath)
    (leafNodeIndex : ℕ) (groupContext : GroupContext) (path : UpdatePath) (excludeNodes : List ℤ) :
    Except MlsError UpdatedPrivateKeys := do
  let secret ←
    applyUpdatePathSecret tree privatePath leafNodeIndex groupContext path excludeNodes cs
  let along ←
    pathSecretsAlongFilteredPath tree leafNodeIndex secret.nodeIndex secret.pathSecret cs.kdf
  let commitSecret ← deriveSecret along.lastSecret "path" cs.kdf
  let pathKeys ← toPrivateKeyPath along.pathSecrets privatePath.leafIndex cs (some tree)
  pure { pathKeys := pathKeys, commitSecret := commitSecret }

/-- The part of `applyTreeUpdate` on the tree with the path. -/
def applyUpdatedTree (cs : CiphersuiteImpl) (updatedTree : RatchetTree)
    (privatePath : PrivateKeyPath) (senderLeafIndex : ℕ) (groupContext : GroupContext)
    (path : UpdatePath) (excludeNodes : List ℤ) : Except MlsError TreeUpdate := do
  let treeHash ← treeHashRoot updatedTree cs.hash
  let updated ← updatePrivateKeyPath cs updatedTree privatePath senderLeafIndex
    { groupContext with treeHash := treeHash, epoch := groupContext.epoch + 1 } path excludeNodes
  pure {
    pathKeys := some updated.pathKeys
    commitSecret := updated.commitSecret
    tree := updatedTree
    treeHash := treeHash }

def applyTreeUpdate (cs : CiphersuiteImpl) (path : Option UpdatePath) (sender : Sender)
    (tree : RatchetTree) (privatePath : PrivateKeyPath) (groupContext : GroupContext)
    (excludeNodes : List ℤ) : Except MlsError TreeUpdate :=
  match path with
  | none => do
    let treeHash ← treeHashRoot tree cs.hash
    pure {
      pathKeys := none
      commitSecret := List.replicate cs.kdf.size 0
      tree := tree
      treeHash := treeHash }
  | some path =>
    match sender with
    | .member leafIndex => do
      let updatedTree ← applyUpdatePath tree leafIndex path cs.hash
      applyUpdatedTree cs updatedTree privatePath leafIndex groupContext path excludeNodes
    | _ => do
      let (treeWithLeafNode, leafNodeIndex) ← addLeafNode tree path.leafNode.leaf
      let senderLeafIndex ← nodeToLeafIndex leafNodeIndex
      let updatedTree ← applyUpdatePath treeWithLeafNode senderLeafIndex path cs.hash true
      applyUpdatedTree cs updatedTree privatePath senderLeafIndex groupContext path excludeNodes

/-- The leaf a commit's path starts from. -/
def committerLeaf (sender : Sender) : ApplyProposalsData → Option ℕ
  | .externalCommit _ newMemberLeafIndex _ => (getSenderLeafNodeIndex sender).or newMemberLeafIndex
  | _ => getSenderLeafNodeIndex sender

def authenticatedCommitter (sender : Sender) : ApplyProposalsData → AuthenticatedSender
  | .externalCommit _ newMemberLeafIndex _ =>
    { senderType := .new_member_commit, leafIndex := some newMemberLeafIndex }
  | _ => memberSender sender

/-- The credential the committer's new leaf is checked against: of the leaf a resync
removed, else of the leaf that is replaced. -/
def committerPriorCredential (tree : RatchetTree) (committerLeafIndex : ℕ) :
    ApplyProposalsData → Option Credential
  | .externalCommit _ _ (some priorCredential) => some priorCredential
  | _ => credentialAtLeaf tree committerLeafIndex

/-- The committer's new leaf is checked before anything is applied. -/
def validateCommitPath (cs : CiphersuiteImpl) (state : ClientState cs.signature) (sender : Sender)
    (result : ApplyProposalsResult) : Option UpdatePath → Except MlsError Unit
  | none => pure ()
  | some path =>
    match committerLeaf sender result.additionalResult with
    | none => throw (validationError
        "Cannot verify commit leaf node because no commiter leaf index found")
    | some committerLeafIndex => do
      let err ← validateLeafNodeUpdateOrCommit path.leafNode.leaf committerLeafIndex
        (groupContextWithExtensions state.groupContext result.additionalResult) result.tree
        state.clientConfig.authService cs.signature cs.hpke
        (committerPriorCredential result.tree committerLeafIndex result.additionalResult)
        (summarizeLeaves result.tree)
      throwIfDefined err

/-- Leaves this commit adds are sent their path secret in a Welcome, or hold it already. -/
def commitExcludeNodes (result : ApplyProposalsResult) : List ℤ :=
  match result.additionalResult with
  | .memberCommit addedLeafNodes _ => addedLeafNodes.map fun l => leafToNodeIndex l.1
  | _ => [findBlankLeafNodeIndexOrExtend result.tree]

def commitInitSecret (state : ClientState sig) : ApplyProposalsData → Bytes
  | .externalCommit externalInitSecret _ _ => externalInitSecret
  | _ => state.keySchedule.initSecret

def receiverPrivatePath (ownPath : PrivateKeyPath) (pathKeys : Option PrivateKeyPath)
    (tree : RatchetTree) : PrivateKeyPath :=
  pruneBlankedNodes
    (match pathKeys with
      | none => ownPath
      | some pathKeys => mergePrivateKeyPaths ownPath pathKeys) tree

/-- What a receiver derives of the epoch a commit starts. -/
structure NextEpoch where
  update : TreeUpdate
  groupContext : GroupContext
  epochSecrets : EpochSecrets
  secretTree : SecretTree
  confirmationTag : Bytes

/-- The path of the member, with the key of its own Update if the commit applies it. -/
def ownPrivatePath (state : ClientState sig) (proposals : List ProposalOrRef) : PrivateKeyPath :=
  match appliedPendingUpdateKey state.pendingUpdateKeys proposals with
  | none => state.privatePath
  | some appliedUpdate => updateLeafKey state.privatePath appliedUpdate.hpkePrivateKey

/-- The part of `processCommit` that derives the next epoch. -/
def deriveNextEpoch (cs : CiphersuiteImpl) (state : ClientState cs.signature)
    (content : AuthenticatedContent) (commit : Commit) (wireformat : WireformatName)
    (result : ApplyProposalsResult) : Except MlsError NextEpoch := do
  let context := groupContextWithExtensions state.groupContext result.additionalResult
  let update ← applyTreeUpdate cs commit.path content.content.sender result.tree
    (ownPrivatePath state commit.proposals) context (commitExcludeNodes result)
  match content.auth.content with
  | .commit confirmationTag => do
    let updatedGroupContext ← nextEpochContext context wireformat content.content
      content.auth.signature update.treeHash state.confirmationTag cs.hash
    let epochSecrets ← initializeEpoch (commitInitSecret state result.additionalResult)
      update.commitSecret updatedGroupContext result.pskSecret cs.kdf
    if !verifyConfirmationTag epochSecrets.keySchedule.confirmationKey confirmationTag
        updatedGroupContext.confirmedTranscriptHash cs.hash then
      throw (cryptoVerificationError "Could not verify confirmation tag")
    else do
      let secretTree ←
        createSecretTree (leafWidth update.tree.length) epochSecrets.encryptionSecret cs.kdf
      pure {
        update := update
        groupContext := updatedGroupContext
        epochSecrets := epochSecrets
        secretTree := secretTree
        confirmationTag := confirmationTag }
  | _ => throw (validationError "Received content as commit, but not auth")

def nextState (state : ClientState sig) (commit : Commit) (result : ApplyProposalsResult)
    (next : NextEpoch) : ClientState sig :=
  { withoutPendingUpdateKeys state with
    signaturePrivateKey :=
      ((appliedPendingUpdateKey state.pendingUpdateKeys commit.proposals).bind
        PendingUpdateKey.signaturePrivateKey).getD state.signaturePrivateKey
    secretTree := next.secretTree
    ratchetTree := next.update.tree
    privatePath := receiverPrivatePath (ownPrivatePath state commit.proposals)
      next.update.pathKeys next.update.tree
    groupContext := next.groupContext
    keySchedule := next.epochSecrets.keySchedule
    confirmationTag := next.confirmationTag
    historicalReceiverData := addHistoricalReceiverData state
    unappliedProposals := emptyUnappliedProposals
    groupActiveState := nextGroupActiveState result.selfRemoved result.additionalResult }

/-- The state of a member a commit removes stays in its epoch. -/
def removedState (state : ClientState sig) : ClientState sig :=
  { withoutPendingUpdateKeys state with
    unappliedProposals := emptyUnappliedProposals
    groupActiveState := .removedFromGroup }

/-- The part of `processCommit` behind the application's decision. -/
def followCommit (cs : CiphersuiteImpl) (state : ClientState cs.signature)
    (content : AuthenticatedContent) (commit : Commit) (wireformat : WireformatName)
    (result : ApplyProposalsResult) : Except MlsError (ClientState cs.signature) := do
  validateCommitPath cs state content.content.sender result commit.path
  if result.needsUpdatePath ∧ commit.path = none then
    throw (validationError "Update path is required")
  else if result.selfRemoved then pure (removedState state)
  else do
    let next ← deriveNextEpoch cs state content commit wireformat result
    pure (nextState state commit result next)

structure NewStateWithActionTaken (sig : Signature) where
  newState : ClientState sig
  actionTaken : IncomingMessageAction
  committer : Option AuthenticatedSender

def processCommit (cs : CiphersuiteImpl) (state : ClientState cs.signature)
    (content : AuthenticatedContent) (commit : Commit) (wireformat : WireformatName)
    (pskSearch : PskIndex) (onMessage : IncomingMessageCallback) (currentTime : ℤ) :
    Except MlsError (NewStateWithActionTaken cs.signature) :=
  if content.content.epoch ≠ state.groupContext.epoch then
    throw (validationError "Could not validate epoch")
  else do
    let sender := content.content.sender
    let result ← applyProposals cs state commit.proposals (getSenderLeafNodeIndex sender) pskSearch
      false (commit.path.map fun path => path.leafNode.leaf) sender.senderType currentTime
    let committer := authenticatedCommitter sender result.additionalResult
    match onMessage (.commit result.allProposals committer) with
    | .reject => pure { newState := state, actionTaken := .reject, committer := none }
    | .accept => do
      let newState ← followCommit cs state content commit wireformat result
      pure { newState := newState, actionTaken := .accept, committer := some committer }

/-! ## Messages -/

def proposalWithSender (content : AuthenticatedContent) (proposal : Proposal) :
    ProposalWithSender where
  proposal := proposal
  senderLeafIndex := getSenderLeafNodeIndex content.content.sender
  senderType := content.content.sender.senderType

def handleProposal (cs : CiphersuiteImpl) (state : ClientState cs.signature)
    (content : AuthenticatedContent) (proposal : Proposal) (onMessage : IncomingMessageCallback)
    (currentTime : ℤ) : Except MlsError (NewStateWithActionTaken cs.signature) :=
  match onMessage (.proposal (proposalWithSender content proposal)) with
  | .reject => pure { newState := state, actionTaken := .reject, committer := none }
  | .accept => do
    let newState ← processProposal cs state content proposal currentTime
    pure { newState := newState, actionTaken := .accept, committer := none }

def NewStateWithActionTaken.result (r : NewStateWithActionTaken sig) : ProcessMessageResult sig :=
  .newState r.newState r.actionTaken r.committer

def applicationResult (content : AuthenticatedContent) (applicationData : Bytes)
    (newState : ClientState sig) : ProcessMessageResult sig :=
  .applicationMessage applicationData newState (memberSender content.content.sender)
    content.content.authenticatedData

/-- A message of a former epoch: only an application message, with what is retained. -/
def formerEpochResult (cs : CiphersuiteImpl) (state : ClientState cs.signature)
    (pm : PrivateMessage) : Except MlsError (ProcessMessageResult cs.signature) :=
  match state.historicalReceiverData.get pm.epoch with
  | none => throw (validationError "Cannot process message, epoch too old")
  | some receiverData =>
    if pm.contentType ≠ .application then
      throw (validationError "Cannot process commit or proposal from former epoch")
    else do
      let result ← unprotectPrivateMessage receiverData.senderDataSecret pm receiverData.secretTree
        receiverData.ratchetTree receiverData.groupContext state.clientConfig.keyRetentionConfig cs
      match result.content.content.info with
      | .application applicationData =>
        pure (applicationResult result.content applicationData { state with
          historicalReceiverData := state.historicalReceiverData.set pm.epoch
            { receiverData with secretTree := result.tree } })
      | _ => throw (internalError "Decrypted content type does not match the message envelope")

/-- A message of the state's own epoch. -/
def currentEpochResult (cs : CiphersuiteImpl) (state : ClientState cs.signature)
    (pm : PrivateMessage) (pskSearch : PskIndex) (onMessage : IncomingMessageCallback)
    (currentTime : ℤ) : Except MlsError (ProcessMessageResult cs.signature) := do
  let result ← unprotectPrivateMessage state.keySchedule.senderDataSecret pm state.secretTree
    state.ratchetTree state.groupContext state.clientConfig.keyRetentionConfig cs
  let updatedState := { state with secretTree := result.tree }
  match result.content.content.info with
  | .application applicationData =>
    pure (applicationResult result.content applicationData updatedState)
  | .commit commit => do
    let processed ← processCommit cs updatedState result.content commit .mls_private_message
      pskSearch onMessage currentTime
    pure processed.result
  | .proposal proposal => do
    let handled ← handleProposal cs updatedState result.content proposal onMessage currentTime
    pure handled.result

def privateMessageResult (cs : CiphersuiteImpl) (state : ClientState cs.signature)
    (pm : PrivateMessage) (pskSearch : PskIndex) (onMessage : IncomingMessageCallback)
    (currentTime : ℤ) : Except MlsError (ProcessMessageResult cs.signature) := do
  throwIfRemovedFromGroup state
  if !constantTimeEqual pm.groupId state.groupContext.groupId then
    throw (validationError "Cannot process message, groupId does not match")
  else do
    throwIfSuspendedPendingReinit state pm.epoch pm.contentType
    if pm.epoch > state.groupContext.epoch then
      throw (validationError "Cannot process message, epoch is in the future")
    else if pm.epoch < state.groupContext.epoch then formerEpochResult cs state pm
    else currentEpochResult cs state pm pskSearch onMessage currentTime

/-- The epoch of a proposal, which no other check compares. -/
def validateProposalEpoch (epoch current : ℤ) : Except MlsError Unit :=
  if epoch ≠ current then
    throw (validationError
      (if epoch < current then "Cannot process proposal, epoch too old"
      else "Cannot process proposal, epoch is in the future"))
  else pure ()

def publicMessageResult (cs : CiphersuiteImpl) (state : ClientState cs.signature)
    (pm : PublicMessage) (pskSearch : PskIndex) (onMessage : IncomingMessageCallback)
    (currentTime : ℤ) : Except MlsError (NewStateWithActionTaken cs.signature) := do
  throwIfRemovedFromGroup state
  if !constantTimeEqual pm.content.groupId state.groupContext.groupId then
    throw (validationError "Cannot process message, groupId does not match")
  else do
    throwIfSuspendedPendingReinit state pm.content.epoch pm.content.contentType
    if pm.content.epoch < state.groupContext.epoch then
      throw (validationError "Cannot process message, epoch too old")
    else do
      let content ← unprotectPublicMessage state.keySchedule.membershipKey state.groupContext
        state.ratchetTree pm cs
      match content.content.info with
      | .proposal proposal => do
        validateProposalEpoch content.content.epoch state.groupContext.epoch
        handleProposal cs state content proposal onMessage currentTime
      | .commit commit =>
        processCommit cs state content commit .mls_public_message pskSearch onMessage currentTime
      | .application _ => throw (typeError "content.commit is undefined")

inductive MlsHandshakeMessage where
  | mls_public_message (publicMessage : PublicMessage)
  | mls_private_message (privateMessage : PrivateMessage)

def processMessage (cs : CiphersuiteImpl) (message : MlsHandshakeMessage)
    (state : ClientState cs.signature) (pskIndex : PskIndex) (action : IncomingMessageCallback)
    (currentTime : ℤ) : Except MlsError (ProcessMessageResult cs.signature) :=
  match message with
  | .mls_public_message publicMessage => do
    let result ← publicMessageResult cs state publicMessage pskIndex action currentTime
    pure result.result
  | .mls_private_message privateMessage =>
    privateMessageResult cs state privateMessage pskIndex action currentTime

end WebcryptoMls
