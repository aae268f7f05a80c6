import WebcryptoMls.ProposalProcessing
import WebcryptoMls.TreeValidation

/-!
# Commits

A committer applies the proposals it bundles, adds a path where one is needed,
derives the next epoch and seals its joiner secret to every member it added.
-/
namespace WebcryptoMls
open PrefixCode Records

/-! ## Changes to the committer's leaf -/

/-- Exporting the public half of a platform key may fail. -/
inductive SignatureKeyPair (sig : Signature) where
  | bytes (publicKey : Bytes) (signKey : sig.SignatureSecretKey)
  | cryptoKeyPair (exported : Except MlsError Bytes) (privateKey : sig.SignatureSecretKey)

structure LeafNodePatch (sig : Signature) where
  credential : Option Credential := none
  signatureKeyPair : Option (SignatureKeyPair sig) := none
  capabilities : Option Capabilities := none
  extensions : Option (List Extension) := none

def signatureAlgorithmName : SignatureAlgorithm → String
  | .Ed25519 => "Ed25519"
  | .Ed448 => "Ed448"
  | .P256 => "P256"
  | .P384 => "P384"
  | .P521 => "P521"
  | .ML_DSA_87 => "ML-DSA-87"

def resolveSignatureKeyPair (cs : CiphersuiteImpl) :
    SignatureKeyPair cs.signature → Except MlsError (Bytes × cs.signature.SignatureSecretKey)
  | .bytes publicKey signKey => pure (publicKey, signKey)
  | .cryptoKeyPair exported privateKey => do
    let suite ← getCiphersuiteFromName cs.name
    if suite.signature ≠ .Ed25519 then
      throw (usageError ("signatureKeyPair is only supported for Ed25519 ciphersuites, not " ++
        signatureAlgorithmName suite.signature))
    else do
      let publicKey ← exported
      pure (publicKey, privateKey)

def resolveLeafNodePatch (cs : CiphersuiteImpl) (patch : LeafNodePatch cs.signature) :
    Except MlsError (ResolvedLeafNodePatch cs.signature) := do
  let signature ← patch.signatureKeyPair.mapM (resolveSignatureKeyPair cs)
  pure {
    credential := patch.credential
    signature := signature
    capabilities := patch.capabilities
    extensions := patch.extensions }

/-! ## Choosing the proposals -/

def extensionsAfterCommit (current : List Extension) (proposals : List Proposal) : List Extension :=
  let gce := proposals.filterMap fun p => match p with
    | .group_context_extensions extensions => some extensions
    | _ => none
  if gce.length = 0 then current else gce.flatten

/-- The loop state of `filterPendingProposals`. -/
structure Filtering where
  tree : RatchetTree
  removed : List ℕ
  seen : List Bytes
  kept : List (Bytes × Proposal)

def isRemoveProposal : Proposal → Bool
  | .remove _ => true
  | _ => false

/-- An Update of the committer's own leaf, or of one that is removed. -/
def updatesOwnOrRemoved (own : ℕ) (removed : List ℕ) (p : ProposalWithSender) : Bool :=
  match p.proposal with
  | .update _ => match p.senderLeafIndex with
    | some senderLeafIndex => senderLeafIndex == own || removed.contains senderLeafIndex
    | none => false
  | _ => false

/-- A proposal that passes is kept; a Remove blanks its leaf. -/
def keepProposal (acc : Filtering) (ref encoded : Bytes) (proposal : Proposal) :
    Except MlsError Filtering :=
  match proposal with
  | .remove removed => do
    let tree ← removeLeafNode acc.tree removed
    pure {
      tree := tree
      removed := removed :: acc.removed
      seen := encoded :: acc.seen
      kept := acc.kept ++ [(ref, proposal)] }
  | _ => pure { acc with seen := encoded :: acc.seen, kept := acc.kept ++ [(ref, proposal)] }

/-- The round of `filterPendingProposals` for one pending proposal. -/
def filterPendingProposal (cs : CiphersuiteImpl) (state : ClientState cs.signature)
    (currentTime : ℤ) (acc : Filtering) (entry : Bytes × ProposalWithSender) :
    Except MlsError Filtering := do
  let own := state.privatePath.leafIndex
  let p := entry.2
  let encoded ← encodeProposal p.proposal
  if acc.seen.contains encoded then pure acc
  else if updatesOwnOrRemoved own acc.removed p then pure acc
  else do
    let err ← validateProposalOnReceipt cs { state with ratchetTree := acc.tree } p.proposal
      p.senderLeafIndex (p.senderLeafIndex == some own) currentTime
    match err with
    | some _ => pure acc
    | none => keepProposal acc entry.1 encoded p.proposal

/-- The leaf an Add or an Update brings in. -/
def proposedLeaf : Proposal → Option LeafNode
  | .add keyPackage => some keyPackage.leafNode.leaf
  | .update leafNode => some leafNode.leaf
  | _ => none

/-- The reference of a kept proposal that meets the requirement the commit sets. -/
def keptReference (extensions : List Extension) (entry : Bytes × Proposal) :
    Except MlsError (Option Bytes) :=
  match proposedLeaf entry.2 with
  | none => pure (some entry.1)
  | some leaf => do
    let err ← requiredCapabilitiesError leaf extensions
    pure (if err = none then some entry.1 else none)

/-- The references of the pending proposals the commit may bundle. -/
def filterPendingProposals (cs : CiphersuiteImpl) (state : ClientState cs.signature)
    (extraProposals : List Proposal) (currentTime : ℤ) : Except MlsError (List Bytes) := do
  let pending := state.unappliedProposals.entries
  let ordered := (pending.filter fun e => isRemoveProposal e.2.proposal) ++
    pending.filter fun e => !isRemoveProposal e.2.proposal
  let filtering ← ordered.foldlM (filterPendingProposal cs state currentTime)
    { tree := state.ratchetTree, removed := [], seen := [], kept := [] }
  let extensions := extensionsAfterCommit state.groupContext.extensions
    (filtering.kept.map Prod.snd ++ extraProposals)
  let references ← filtering.kept.mapM (keptReference extensions)
  pure (references.filterMap id)

def bundleAllProposals (pendingRefs : List Bytes) (extraProposals : List Proposal) :
    List ProposalOrRef :=
  pendingRefs.map .reference ++ extraProposals.map .proposal

/-! ## Group infos and welcomes -/

def signGroupInfo (tbs : GroupInfoTBS) (s : Signature) (coins : Bytes)
    (privateKey : s.SignatureSecretKey) : Except MlsError GroupInfo := do
  let encoded ← encodeGroupInfoTBS tbs
  let signature ← signWithLabel s coins privateKey "GroupInfoTBS" encoded
  pure { tbs with signature := signature }

def createGroupInfo (groupContext : GroupContext) (confirmationTag : Bytes) (signer : ℕ)
    (extensions : List Extension) (s : Signature) (coins : Bytes)
    (privateKey : s.SignatureSecretKey) : Except MlsError GroupInfo :=
  signGroupInfo {
    groupContext := groupContext
    extensions := extensions
    confirmationTag := confirmationTag
    signer := signer } s coins privateKey

def encodeNode : Encoder Node
  | .parent parent => do
    let nodeType ← encodeNodeType .parent
    let encoded ← encodeParentNode parent
    pure (nodeType ++ encoded)
  | .leaf leaf => do
    let nodeType ← encodeNodeType .leaf
    let encoded ← encodeLeafNode leaf
    pure (nodeType ++ encoded)

def encodeRatchetTree : Encoder RatchetTree :=
  contramapEncoder (encodeVarLenType (encodeOptional encodeNode)) stripBlankNodes

/-- The extensions of a GroupInfo that may carry the tree. -/
def withRatchetTree (ratchetTreeExtension : Bool) (tree : RatchetTree)
    (extensions : List Extension) : Except MlsError (List Extension) :=
  if ratchetTreeExtension then do
    let encodedTree ← encodeRatchetTree tree
    pure (extensions ++
      [{ extensionType := .default .ratchet_tree, extensionData := encodedTree }])
  else pure extensions

def welcomeNonce (welcomeSecret : Bytes) (cs : CiphersuiteImpl) : Except MlsError Bytes :=
  expandWithLabel welcomeSecret "nonce" [] cs.hpke.nonceLength cs.kdf

def welcomeKey (welcomeSecret : Bytes) (cs : CiphersuiteImpl) : Except MlsError Bytes :=
  expandWithLabel welcomeSecret "key" [] cs.hpke.keyLength cs.kdf

def encryptGroupInfo (groupInfo : GroupInfo) (welcomeSecret : Bytes) (cs : CiphersuiteImpl) :
    Except MlsError Bytes := do
  let key ← welcomeKey welcomeSecret cs
  let nonce ← welcomeNonce welcomeSecret cs
  let encoded ← encodeGroupInfo groupInfo
  cs.hpke.encryptAead key nonce none encoded

structure GroupSecrets where
  joinerSecret : Bytes
  pathSecret : Option Bytes
  psks : List PreSharedKeyID

def encodeGroupSecrets : Encoder GroupSecrets := contramapEncoders [
  contramapEncoder encodeVarLenData GroupSecrets.joinerSecret,
  contramapEncoder (encodeOptional encodeVarLenData) GroupSecrets.pathSecret,
  contramapEncoder (encodeVarLenType encodePskId) GroupSecrets.psks]

def encryptGroupSecrets (hpke : Hpke) (coins : Bytes) (initKey : hpke.PublicKey)
    (encryptedGroupInfo : Bytes) (groupSecrets : GroupSecrets) : Except MlsError Sealed := do
  let encoded ← encodeGroupSecrets groupSecrets
  encryptWithLabel hpke coins initKey "Welcome" encryptedGroupInfo encoded

/-- What every added member is sent. -/
structure WelcomeContent where
  tree : RatchetTree
  committerLeafIndex : ℕ
  pathSecrets : List PathSecret
  encryptedGroupInfo : Bytes
  joinerSecret : Bytes
  pskIds : List PreSharedKeyID

/-- The path secret of an added member is the one at its common ancestor with the committer. -/
def createEncryptedGroupSecrets (cs : CiphersuiteImpl) (w : WelcomeContent) (coins : Bytes)
    (leafNodeIndex : ℕ) (keyPackage : KeyPackage) : Except MlsError EncryptedGroupSecrets := do
  let nodeIndex ← firstCommonAncestor w.tree leafNodeIndex w.committerLeafIndex
  let pathSecret := w.pathSecrets.find? fun ps => ps.nodeIndex = nodeIndex
  let pk ← cs.hpke.importPublicKey keyPackage.initKey
  let egs ← encryptGroupSecrets cs.hpke coins pk w.encryptedGroupInfo {
    joinerSecret := w.joinerSecret
    pathSecret := pathSecret.map PathSecret.secret
    psks := w.pskIds }
  let ref ← makeKeyPackageRef keyPackage cs.hash
  pure { newMember := ref, encryptedGroupSecrets := { kemOutput := egs.enc, ciphertext := egs.ct } }

def addedLeafNodes : ApplyProposalsData → List (ℕ × KeyPackage)
  | .memberCommit addedLeafNodes _ => addedLeafNodes
  | _ => []

/-- The random bytes one commit draws. -/
structure CommitCoins where
  path : PathCoins
  signature : Bytes
  reuseGuard : Bytes
  groupInfo : Bytes
  welcome : ℕ → Bytes

def createWelcome (cs : CiphersuiteImpl) (groupContext : GroupContext) (groupInfo : GroupInfo)
    (content : Bytes → WelcomeContent) (welcomeSecret : Bytes) (added : List (ℕ × KeyPackage))
    (coins : ℕ → Bytes) : Except MlsError (Option Welcome) := do
  let encryptedGroupInfo ← encryptGroupInfo groupInfo welcomeSecret cs
  let secrets ← added.zipIdx.mapM fun ((leafNodeIndex, keyPackage), i) =>
    createEncryptedGroupSecrets cs (content encryptedGroupInfo) (coins i) leafNodeIndex keyPackage
  if secrets.length > 0 then
    pure (some {
      cipherSuite := groupContext.cipherSuite
      secrets := secrets
      encryptedGroupInfo := encryptedGroupInfo })
  else pure none

/-! ## Creating a commit -/

structure CreateCommitOptions (sig : Signature) where
  wireAsPublicMessage : Bool := false
  extraProposals : List Proposal := []
  ratchetTreeExtension : Bool := false
  groupInfoExtensions : List Extension := []
  authenticatedData : Bytes := []
  leafNodePatch : Option (LeafNodePatch sig) := none

structure CreateCommitResult (sig : Signature) where
  newState : ClientState sig
  welcome : Option Welcome
  welcomeMessage : Option MLSMessage
  commit : MLSMessage

def commitWireformat (wireAsPublicMessage : Bool) : WireformatName :=
  if wireAsPublicMessage then .mls_public_message else .mls_private_message

/-- The context the epoch after the commit is built on. -/
def groupContextWithExtensions (groupContext : GroupContext) : ApplyProposalsData → GroupContext
  | .memberCommit _ groupContext => groupContext
  | _ => groupContext

/-- What a commit with or without a path leaves. -/
structure CommitPath (cs : CiphersuiteImpl) where
  tree : RatchetTree
  updatePath : Option UpdatePath
  pathSecrets : List PathSecret
  newPrivateKey : Option cs.hpke.PrivateKey
  pathTreeHash : Option Bytes

def CreatedPath.commitPath {cs : CiphersuiteImpl} (path : CreatedPath cs) : CommitPath cs where
  tree := path.tree
  updatePath := some path.updatePath
  pathSecrets := path.pathSecrets
  newPrivateKey := some path.leafPrivateKey
  pathTreeHash := some path.treeHash

/-- A patched leaf is checked as a receiver will check it. -/
def createCommitPath (cs : CiphersuiteImpl) (state : ClientState cs.signature)
    (res : ApplyProposalsResult) (patch : Option (ResolvedLeafNodePatch cs.signature))
    (coins : PathCoins) : Except MlsError (CommitPath cs) := do
  let own := state.privatePath.leafIndex
  let context := groupContextWithExtensions state.groupContext res.additionalResult
  let addedLeafNodeIndices := (addedLeafNodes res.additionalResult).map fun l => leafToNodeIndex l.1
  match patch with
  | none =>
    if res.needsUpdatePath then do
      let path ← createUpdatePath res.tree own context cs state.signaturePrivateKey coins
        addedLeafNodeIndices
      pure path.commitPath
    else pure {
      tree := res.tree
      updatePath := none
      pathSecrets := []
      newPrivateKey := none
      pathTreeHash := none }
  | some patch => do
    let path ← createUpdatePath res.tree own context cs state.signaturePrivateKey coins
      addedLeafNodeIndices patch
    let err ← validateLeafNodeUpdateOrCommit path.updatePath.leafNode.leaf own context res.tree
      state.clientConfig.authService cs.signature cs.hpke (credentialAtLeaf res.tree own)
      (summarizeLeaves res.tree)
    throwIfDefined err
    pure path.commitPath

def commitSecretOf (pathSecrets : List PathSecret) (kdf : Kdf) : Except MlsError Bytes :=
  match pathSecrets.getLast? with
  | none => pure (List.replicate kdf.size 0)
  | some lastPathSecret => deriveSecret lastPathSecret.secret "path" kdf

/-- `pathTreeHash ?? await treeHashRoot(tree)` -/
def commitTreeHash {cs : CiphersuiteImpl} (path : CommitPath cs) : Except MlsError Bytes :=
  match path.pathTreeHash with
  | some treeHash => pure treeHash
  | none => treeHashRoot path.tree cs.hash

def protectCommit (cs : CiphersuiteImpl) (publicMessage : Bool) (state : ClientState cs.signature)
    (authenticatedData : Bytes) (content : FramedContent) (authData : FramedContentAuthData)
    (reuseGuard : Bytes) : Except MlsError MLSMessage :=
  if publicMessage then do
    let msg ← protectPublicMessage state.keySchedule.membershipKey state.groupContext
      { wireformat := .mls_public_message, content := content, auth := authData } cs
    pure { version := .mls10, content := .mls_public_message msg }
  else do
    let res ← protect state.keySchedule.senderDataSecret authenticatedData state.groupContext
      state.secretTree { info := content.info, auth := authData } state.privatePath.leafIndex
      state.clientConfig.paddingConfig reuseGuard cs
    pure { version := .mls10, content := .mls_private_message res.privateMessage }

def withNewLeafKey {cs : CiphersuiteImpl} (privatePath : PrivateKeyPath) :
    Option cs.hpke.PrivateKey → Except MlsError PrivateKeyPath
  | some newPrivateKey => do
    let exported ← cs.hpke.exportPrivateKey newPrivateKey
    pure (updateLeafKey privatePath exported)
  | none => pure privatePath

/-- The committer's keys: its old ones, its new leaf key and those of the path, without
the nodes that are blank now. -/
def committerPrivatePath {cs : CiphersuiteImpl} (privatePath : PrivateKeyPath)
    (path : CommitPath cs) : Except MlsError PrivateKeyPath := do
  let ownPath ← withNewLeafKey privatePath path.newPrivateKey
  let pathKeys ← toPrivateKeyPath (pathToPathSecrets path.pathSecrets) privatePath.leafIndex cs none
  pure (pruneBlankedNodes (mergePrivateKeyPaths ownPath pathKeys) path.tree)

def nextGroupActiveState (selfRemoved : Bool) : ApplyProposalsData → GroupActiveState
  | .reinit reinit => if selfRemoved then .removedFromGroup else .suspendedPendingReinit reinit
  | _ => if selfRemoved then .removedFromGroup else .active

def createCommit (cs : CiphersuiteImpl) (state : ClientState cs.signature) (pskIndex : PskIndex)
    (options : CreateCommitOptions cs.signature) (coins : CommitCoins) (currentTime : ℤ) :
    Except MlsError (CreateCommitResult cs.signature) := do
  checkCanSendHandshakeMessages state
  let patch ← options.leafNodePatch.mapM (resolveLeafNodePatch cs)
  let pendingRefs ← filterPendingProposals cs state options.extraProposals currentTime
  let allProposals := bundleAllProposals pendingRefs options.extraProposals
  let own := state.privatePath.leafIndex
  let res ← applyProposals cs state allProposals (some own) pskIndex true none .member currentTime
  match res.additionalResult with
  | .externalCommit _ _ _ => throw (usageError "Cannot create externalCommit as a member")
  | _ => do
    let path ← createCommitPath cs state res patch coins.path
    let signaturePrivateKey :=
      ((patch.bind ResolvedLeafNodePatch.signature).map Prod.snd).getD state.signaturePrivateKey
    let commitSecret ← commitSecretOf path.pathSecrets cs.kdf
    let signed ← createContentCommitSignature state.groupContext
      (commitWireformat options.wireAsPublicMessage)
      { proposals := allProposals, path := path.updatePath } (.member own) options.authenticatedData
      cs.signature coins.signature state.signaturePrivateKey
    let treeHash ← commitTreeHash path
    let updatedGroupContext ← nextEpochContext
      (groupContextWithExtensions state.groupContext res.additionalResult)
      (commitWireformat options.wireAsPublicMessage) signed.framedContent signed.signature treeHash
      state.confirmationTag cs.hash
    let epochSecrets ← initializeEpoch state.keySchedule.initSecret commitSecret updatedGroupContext
      res.pskSecret cs.kdf
    let confirmationTag := createConfirmationTag epochSecrets.keySchedule.confirmationKey
      updatedGroupContext.confirmedTranscriptHash cs.hash
    let commit ← protectCommit cs options.wireAsPublicMessage state options.authenticatedData
      signed.framedContent
      { signature := signed.signature, content := .commit confirmationTag } coins.reuseGuard
    let groupInfoExtensions ← withRatchetTree options.ratchetTreeExtension path.tree
      options.groupInfoExtensions
    let groupInfo ← createGroupInfo updatedGroupContext confirmationTag own groupInfoExtensions
      cs.signature coins.groupInfo signaturePrivateKey
    let welcome ← createWelcome cs updatedGroupContext groupInfo
      (fun encryptedGroupInfo => {
        tree := path.tree
        committerLeafIndex := own
        pathSecrets := path.pathSecrets
        encryptedGroupInfo := encryptedGroupInfo
        joinerSecret := epochSecrets.joinerSecret
        pskIds := res.pskIds })
      epochSecrets.welcomeSecret (addedLeafNodes res.additionalResult) coins.welcome
    let privateKeys ← committerPrivatePath state.privatePath path
    let secretTree ← createSecretTree (leafWidth path.tree.length) epochSecrets.encryptionSecret cs.kdf
    pure {
      newState := {
        groupContext := updatedGroupContext
        ratchetTree := path.tree
        secretTree := secretTree
        keySchedule := epochSecrets.keySchedule
        privatePath := privateKeys
        unappliedProposals := emptyUnappliedProposals
        pendingUpdateKeys := none
        historicalReceiverData := addHistoricalReceiverData state
        confirmationTag := confirmationTag
        signaturePrivateKey := signaturePrivateKey
        groupActiveState := nextGroupActiveState res.selfRemoved res.additionalResult
        clientConfig := state.clientConfig }
      welcome := welcome
      welcomeMessage := welcome.map fun welcome =>
        { version := .mls10, content := .mls_welcome welcome }
      commit := commit }

end WebcryptoMls
