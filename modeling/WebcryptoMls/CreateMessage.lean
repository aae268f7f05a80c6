import WebcryptoMls.Commits

/-!
# Proposals and application messages

What a member sends besides its commits. A proposal is checked as its receivers will check
it, and is pending for its sender from then on. The private key of an Update stays beside
the state's own keys until a commit applies the Update.
-/
namespace WebcryptoMls
open Records

/-! ## Framing -/

/-- The random bytes of one message. -/
structure MessageCoins where
  signature : Bytes
  reuseGuard : Bytes

/-- Only a commit's authentication says more than its type. -/
def signFramedContentApplicationOrProposal (cs : CiphersuiteImpl)
    (signKey : cs.signature.SignatureSecretKey) (coins : Bytes) (tbs : FramedContentTBS) :
    Except MlsError FramedContentAuthData := do
  let signature ← signFramedContentTBS cs.signature coins signKey tbs
  pure {
    signature := signature
    content := match tbs.content.info with
      | .application _ => .application
      | _ => .proposal }

/-- What a member frames in its epoch. -/
def memberContent (groupContext : GroupContext) (leafIndex : ℕ) (authenticatedData : Bytes)
    (info : FramedContentInfo) : FramedContent where
  groupId := groupContext.groupId
  epoch := groupContext.epoch
  sender := .member leafIndex
  authenticatedData := authenticatedData
  info := info

structure ProtectApplicationDataResult where
  privateMessage : PrivateMessage
  newSecretTree : SecretTree

def protectApplicationData (cs : CiphersuiteImpl) (signKey : cs.signature.SignatureSecretKey)
    (senderDataSecret applicationData authenticatedData : Bytes) (groupContext : GroupContext)
    (secretTree : SecretTree) (leafIndex : ℕ) (paddingConfig : PaddingConfig)
    (coins : MessageCoins) : Except MlsError ProtectApplicationDataResult := do
  let content := memberContent groupContext leafIndex authenticatedData (.application applicationData)
  let auth ← signFramedContentApplicationOrProposal cs signKey coins.signature
    (toTbs content .mls_private_message groupContext)
  let result ← protect senderDataSecret authenticatedData groupContext secretTree
    { info := content.info, auth := auth } leafIndex paddingConfig coins.reuseGuard cs
  pure { privateMessage := result.privateMessage, newSecretTree := result.tree }

structure ProtectProposalResult where
  privateMessage : PrivateMessage
  newSecretTree : SecretTree
  proposalRef : Bytes

def protectProposal (cs : CiphersuiteImpl) (signKey : cs.signature.SignatureSecretKey)
    (senderDataSecret : Bytes) (p : Proposal) (authenticatedData : Bytes)
    (groupContext : GroupContext) (secretTree : SecretTree) (leafIndex : ℕ)
    (paddingConfig : PaddingConfig) (coins : MessageCoins) :
    Except MlsError ProtectProposalResult := do
  let content := memberContent groupContext leafIndex authenticatedData (.proposal p)
  let auth ← signFramedContentApplicationOrProposal cs signKey coins.signature
    (toTbs content .mls_private_message groupContext)
  let privateMessage ← protect senderDataSecret authenticatedData groupContext secretTree
    { info := content.info, auth := auth } leafIndex paddingConfig coins.reuseGuard cs
  let proposalRef ←
    makeProposalRef { wireformat := .mls_private_message, content := content, auth := auth } cs.hash
  pure {
    privateMessage := privateMessage.privateMessage
    newSecretTree := privateMessage.tree
    proposalRef := proposalRef }

def protectProposalPublic (cs : CiphersuiteImpl) (signKey : cs.signature.SignatureSecretKey)
    (membershipKey : Bytes) (groupContext : GroupContext) (authenticatedData : Bytes)
    (proposal : Proposal) (leafIndex : ℕ) (coins : Bytes) : Except MlsError PublicMessage := do
  let framedContent := memberContent groupContext leafIndex authenticatedData (.proposal proposal)
  let auth ← signFramedContentApplicationOrProposal cs signKey coins
    (toTbs framedContent .mls_public_message groupContext)
  protectPublicMessage membershipKey groupContext
    { wireformat := .mls_public_message, content := framedContent, auth := auth } cs

/-! ## Sending a proposal -/

structure SentProposal (sig : Signature) where
  newState : ClientState sig
  message : MLSMessage
  ref : Bytes

section
variable (cs : CiphersuiteImpl)

/-- The state with a proposal of its own pending. -/
def withOwnProposal {sig : Signature} (state : ClientState sig) (ref : Bytes) (proposal : Proposal) :
    ClientState sig :=
  { state with
    unappliedProposals := addUnappliedProposal ref state.unappliedProposals proposal
      (some state.privatePath.leafIndex) .member }

def sendPublicProposal (state : ClientState cs.signature) (proposal : Proposal)
    (authenticatedData : Bytes) (coins : MessageCoins) :
    Except MlsError (SentProposal cs.signature) := do
  let publicMessage ← protectProposalPublic cs state.signaturePrivateKey
    state.keySchedule.membershipKey state.groupContext authenticatedData proposal
    state.privatePath.leafIndex coins.signature
  let ref ← makeProposalRef {
    wireformat := .mls_public_message
    content := publicMessage.content
    auth := publicMessage.auth } cs.hash
  pure {
    newState := withOwnProposal state ref proposal
    message := { version := .mls10, content := .mls_public_message publicMessage }
    ref := ref }

def sendPrivateProposal (state : ClientState cs.signature) (proposal : Proposal)
    (authenticatedData : Bytes) (coins : MessageCoins) :
    Except MlsError (SentProposal cs.signature) := do
  let result ← protectProposal cs state.signaturePrivateKey state.keySchedule.senderDataSecret
    proposal authenticatedData state.groupContext state.secretTree state.privatePath.leafIndex
    state.clientConfig.paddingConfig coins
  pure {
    newState :=
      { withOwnProposal state result.proposalRef proposal with secretTree := result.newSecretTree }
    message := { version := .mls10, content := .mls_private_message result.privateMessage }
    ref := result.proposalRef }

/-- The checks are those of a receiver. -/
def sendProposal (state : ClientState cs.signature) (publicMessage : Bool) (proposal : Proposal)
    (authenticatedData : Bytes) (coins : MessageCoins) (currentTime : ℤ) :
    Except MlsError (SentProposal cs.signature) := do
  checkCanSendHandshakeMessages state
  throwIfDefined (checkPendingCapacity state.unappliedProposals state.clientConfig.maxPendingProposals)
  let proposalError ← validateProposalOnReceipt cs state proposal (some state.privatePath.leafIndex)
    true currentTime
  throwIfDefined proposalError
  if publicMessage then sendPublicProposal cs state proposal authenticatedData coins
  else sendPrivateProposal cs state proposal authenticatedData coins

structure CreateProposalResult (sig : Signature) where
  newState : ClientState sig
  message : MLSMessage

def createProposal (state : ClientState cs.signature) (publicMessage : Bool) (proposal : Proposal)
    (authenticatedData : Bytes) (coins : MessageCoins) (currentTime : ℤ) :
    Except MlsError (CreateProposalResult cs.signature) := do
  let sent ← sendProposal cs state publicMessage proposal authenticatedData coins currentTime
  pure { newState := sent.newState, message := sent.message }

/-! ## Updates -/

structure CreateUpdateProposalOptions (sig : Signature) where
  authenticatedData : Bytes := []
  leafNodePatch : Option (LeafNodePatch sig) := none

/-- The random bytes of an Update, and the key pair that is generated for its leaf. -/
structure UpdateCoins where
  publicKey : cs.hpke.PublicKey
  privateKey : cs.hpke.PrivateKey
  leafSignature : Bytes
  message : MessageCoins

def signLeafNodeUpdate (tbs : LeafNode) (info : LeafNodeGroupInfo) (sig : Signature) (coins : Bytes)
    (signaturePrivateKey : sig.SignatureSecretKey) : Except MlsError LeafNodeUpdate := do
  let leaf := { tbs with info := .update }
  let signature ← signLeafNodeTBS leaf info sig coins signaturePrivateKey
  pure { leaf := { leaf with signature := signature }, source := rfl }

def addPendingUpdateKey {sig : Signature} (ref : Bytes) (keys : Option (PendingUpdateKeys sig))
    (key : PendingUpdateKey sig) : PendingUpdateKeys sig := (keys.getD .empty).set ref key

def createUpdateProposal (state : ClientState cs.signature) (publicMessage : Bool)
    (options : CreateUpdateProposalOptions cs.signature) (coins : UpdateCoins cs)
    (currentTime : ℤ) : Except MlsError (CreateProposalResult cs.signature) := do
  checkCanSendHandshakeMessages state
  let leafIndex := state.privatePath.leafIndex
  match leafAt state.ratchetTree leafIndex with
  | none => throw (internalError "Own leaf is not in the ratchet tree")
  | some node => do
    let resolved ← options.leafNodePatch.mapM (resolveLeafNodePatch cs)
    let patch := resolved.getD {}
    let hpkePublicKey ← cs.hpke.exportPublicKey coins.publicKey
    let leafNode ← signLeafNodeUpdate { node with
        hpkePublicKey := hpkePublicKey
        signaturePublicKey := (patch.signature.map Prod.fst).getD node.signaturePublicKey
        credential := patch.credential.getD node.credential
        capabilities := patch.capabilities.getD node.capabilities
        extensions := patch.extensions.getD node.extensions }
      (.member state.groupContext.groupId leafIndex) cs.signature coins.leafSignature
      ((patch.signature.map Prod.snd).getD state.signaturePrivateKey)
    let sent ← sendProposal cs state publicMessage (.update leafNode) options.authenticatedData
      coins.message currentTime
    let hpkePrivateKey ← cs.hpke.exportPrivateKey coins.privateKey
    pure {
      newState := { sent.newState with
        pendingUpdateKeys := some (addPendingUpdateKey sent.ref state.pendingUpdateKeys {
          hpkePrivateKey := hpkePrivateKey
          signaturePrivateKey := patch.signature.map Prod.snd }) }
      message := sent.message }

/-! ## Application messages -/

def checkCanSendApplicationMessages {sig : Signature} (state : ClientState sig) :
    Except MlsError Unit :=
  if state.unappliedProposals.size ≠ 0 then
    throw (usageError "Cannot send application message with unapplied proposals")
  else checkCanSendHandshakeMessages state

structure CreateApplicationMessageResult (sig : Signature) where
  newState : ClientState sig
  privateMessage : PrivateMessage

def createApplicationMessage (state : ClientState cs.signature)
    (message authenticatedData : Bytes) (coins : MessageCoins) :
    Except MlsError (CreateApplicationMessageResult cs.signature) := do
  checkCanSendApplicationMessages state
  let result ← protectApplicationData cs state.signaturePrivateKey
    state.keySchedule.senderDataSecret message authenticatedData state.groupContext
    state.secretTree state.privatePath.leafIndex state.clientConfig.paddingConfig coins
  pure {
    newState := { state with secretTree := result.newSecretTree }
    privateMessage := result.privateMessage }

end

/-! ## Dropping a proposal -/

def discardPendingProposal {sig : Signature} (state : ClientState sig) (ref : Bytes) :
    ClientState sig :=
  if state.unappliedProposals.get ref = none then state
  else { state with unappliedProposals := state.unappliedProposals.delete ref }

end WebcryptoMls
