import WebcryptoMls.Commits

/-!
# Joining

A group is created by its first member, joined through a Welcome, or joined from
outside by a commit of the joiner's own. A joiner reads the tree from the GroupInfo,
or takes the one it was handed, and validates it.
-/
namespace WebcryptoMls
open PrefixCode Records

/-- What goes with a key package. The signature key is the scheme's own. -/
structure PrivateKeyPackage (sig : Signature) where
  initPrivateKey : Bytes
  hpkePrivateKey : Bytes
  signaturePrivateKey : sig.SignatureSecretKey

/-! ## Group infos -/

def ratchetTreeFromExtension (info : GroupInfo) : Except MlsError (Option RatchetTree) :=
  match findExtension info.extensions .ratchet_tree with
  | none => pure none
  | some treeExtension => do
    let tree ← decodeRatchetTree treeExtension.extensionData 0
    match tree with
    | none => throw (codecError "Could not decode RatchetTree")
    | some (tree, _) => pure (some tree)

/-- `ratchetTreeFromExtension(gi) ?? ratchetTree?.slice()` -/
def joinedTree (info : GroupInfo) (ratchetTree : Option RatchetTree) : Except MlsError RatchetTree := do
  let fromExtension ← ratchetTreeFromExtension info
  match fromExtension.or ratchetTree with
  | none => throw (usageError "No RatchetTree passed and no ratchet_tree extension")
  | some tree => pure tree

def verifyGroupInfoSignature (gi : GroupInfo) (publicKey : Bytes) (s : Signature) :
    Except MlsError Bool := do
  let encoded ← encodeGroupInfoTBS gi.toGroupInfoTBS
  verifyWithLabel publicKey "GroupInfoTBS" encoded gi.signature s

def verifyGroupInfoConfirmationTag (gi : GroupInfo) (joinerSecret pskSecret : Bytes)
    (cs : CiphersuiteImpl) : Except MlsError Bool := do
  let epochSecret ← extractEpochSecret gi.groupContext joinerSecret cs.kdf pskSecret
  let key ← deriveSecret epochSecret "confirm" cs.kdf
  pure (cs.hash.verifyMac key gi.confirmationTag gi.groupContext.confirmedTranscriptHash)

def decodeGroupSecrets : Decoder GroupSecrets := do
  let joinerSecret ← decodeVarLenData
  let pathSecret ← decodeOptional decodeVarLenData
  let psks ← decodeVarLenType decodePskId
  pure { joinerSecret := joinerSecret, pathSecret := pathSecret, psks := psks }

def decryptGroupInfo (w : Welcome) (joinerSecret pskSecret : Bytes) (cs : CiphersuiteImpl) :
    Except MlsError (Option GroupInfo) := do
  let welcomeSecret ← extractWelcomeSecret joinerSecret pskSecret cs.kdf
  let key ← welcomeKey welcomeSecret cs
  let nonce ← welcomeNonce welcomeSecret cs
  let decrypted ← cs.hpke.decryptAead key nonce none w.encryptedGroupInfo
  let decoded ← decodeGroupInfo decrypted 0
  pure (decoded.map Prod.fst)

def decryptGroupSecrets (hpke : Hpke) (initPrivateKey : hpke.PrivateKey) (keyPackageRef : Bytes)
    (welcome : Welcome) : Except MlsError (Option GroupSecrets) :=
  match welcome.secrets.find? fun s => constantTimeEqual s.newMember keyPackageRef with
  | none => throw (validationError "No matching secret found")
  | some secret => do
    let decrypted ← decryptWithLabel hpke initPrivateKey "Welcome" welcome.encryptedGroupInfo
      secret.encryptedGroupSecrets.kemOutput secret.encryptedGroupSecrets.ciphertext
    let decoded ← decodeGroupSecrets decrypted 0
    pure (decoded.map Prod.fst)

/-! ## Resumption -/

inductive ExpectedResumption where
  | branch
  | reinit
  deriving Repr, DecidableEq

def ExpectedResumption.usage : ExpectedResumption → ResumptionPSKUsageName
  | .branch => .branch
  | .reinit => .reinit

def ExpectedResumption.toString : ExpectedResumption → String
  | .branch => "branch"
  | .reinit => "reinit"

/-- The keys that tie a Welcome to a former group. -/
def resumptionPsksRequiringPriorState (pskIds : List PreSharedKeyID) : List PSKInfoResumption :=
  pskIds.filterMap fun id => match id.info with
    | .resumption info => if info.usage ≠ .application then some info else none
    | .external _ => none

def validateExpectedResumption (expectedResumption : Option ExpectedResumption)
    (psks : List PSKInfoResumption) : Except MlsError Unit :=
  match expectedResumption with
  | none => pure ()
  | some expected =>
    match psks with
    | [psk] =>
      if psk.usage ≠ expected.usage then
        throw (validationError s!"Expected a {expected.toString} resumption PSK")
      else pure ()
    | _ => throw (validationError
        s!"A {expected.toString} Welcome must carry exactly one resumption PSK")

def extensionEqual (a b : Extension) : Bool :=
  a.extensionType == b.extensionType && constantTimeEqual a.extensionData b.extensionData

def extensionsEqual (a b : List Extension) : Bool :=
  a.length == b.length && (a.zip b).all fun (x, y) => extensionEqual x y

/-- A ReInit's new group is the one that was announced. -/
def validateReinitGroup {sig : Signature} (old : ClientState sig) (gc : GroupContext) :
    Except MlsError Unit :=
  match old.groupActiveState with
  | .suspendedPendingReinit reinit =>
    if !constantTimeEqual reinit.groupId gc.groupId then
      throw (validationError "new groupId mismatch")
    else if reinit.version ≠ gc.version then throw (validationError "Version mismatch")
    else if reinit.cipherSuite ≠ gc.cipherSuite then throw (validationError "Ciphersuite mismatch")
    else if !extensionsEqual reinit.extensions gc.extensions then
      throw (validationError "Extensions mismatch")
    else pure ()
  | _ => throw (validationError "Found reinit psk but no old suspended clientState")

/-- A branch keeps the former group's version and suite. -/
def validateBranchGroup (old gc : GroupContext) (pskCount : ℕ) : Except MlsError Unit :=
  if gc.version ≠ old.version then throw (validationError "Version mismatch")
  else if gc.cipherSuite ≠ old.cipherSuite then throw (validationError "Ciphersuite mismatch")
  else if pskCount ≠ 1 then
    throw (validationError "A branch Welcome must carry exactly one resumption PSK")
  else pure ()

def validateResumptionPsk {sig : Signature} (resumingFromState : Option (ClientState sig))
    (gc : GroupContext) (pskCount : ℕ) (psk : PSKInfoResumption) : Except MlsError Unit :=
  match resumingFromState with
  | none => throw (validationError "No prior state passed for resumption")
  | some old =>
    if psk.pskEpoch ≠ old.groupContext.epoch then throw (validationError "Epoch mismatch")
    else if !constantTimeEqual psk.pskGroupId old.groupContext.groupId then
      throw (validationError "old groupId mismatch")
    else if gc.epoch ≠ 1 then throw (validationError "Resumption must be started at epoch 1")
    else match psk.usage with
      | .reinit => validateReinitGroup old gc
      | .branch => validateBranchGroup old.groupContext gc pskCount
      | .application => pure ()

def treeLeaves (tree : RatchetTree) : List LeafNode :=
  tree.filterMap fun node => match node with
    | some (.leaf leaf) => some leaf
    | _ => none

def branchMembersMatch (newTree oldTree : RatchetTree) (equality : KeyPackageEqualityConfig) :
    Option MlsError :=
  if (treeLeaves newTree).all fun leaf =>
      (treeLeaves oldTree).any fun old => sameMemberLeafNodes equality leaf old then none
  else some (validationError "Branch Welcome contains a member not in the old group")

def validateBranchMembers {sig : Signature} (resumingFromState : Option (ClientState sig))
    (psks : List PSKInfoResumption) (tree : RatchetTree) (equality : KeyPackageEqualityConfig) :
    Option MlsError :=
  match resumingFromState with
  | some old =>
    if psks.any fun psk => psk.usage == .branch then
      branchMembersMatch tree old.ratchetTree equality
    else none
  | none => none

/-! ## Joining through a Welcome -/

/-- The loop of `findLeafIndex`. -/
def findLeafIndexLoop (leaf : LeafNode) : List (Option Node × ℕ) → Except MlsError (Option ℕ)
  | [] => pure none
  | (none, _) :: nodes => findLeafIndexLoop leaf nodes
  | (some node, nodeIndex) :: nodes =>
    if isLeaf nodeIndex then
      match node with
      | .parent _ => throw (internalError "Found parent node in leaf node position")
      | .leaf found => do
        let a ← encodeLeafNode found
        let b ← encodeLeafNode leaf
        if constantTimeEqual a b then do
          let leafIndex ← nodeToLeafIndex nodeIndex
          pure (some leafIndex)
        else findLeafIndexLoop leaf nodes
    else findLeafIndexLoop leaf nodes

def findLeafIndex (tree : RatchetTree) (leaf : LeafNode) : Except MlsError (Option ℕ) :=
  findLeafIndexLoop leaf tree.zipIdx

def leafAtSigner (tree : RatchetTree) (signer : ℕ) : Except MlsError LeafNode :=
  match nodeAt tree (leafToNodeIndex signer) with
  | none => throw (validationError "Could not find signer leafNode")
  | some (.parent _) => throw (validationError "Expected non blank leaf node")
  | some (.leaf leaf) => pure leaf

/-- The checks of a join on the tree and the GroupInfo, up to the joiner's own leaf. -/
def validateJoinedTree (cs : CiphersuiteImpl) (gi : GroupInfo) (tree : RatchetTree)
    (keyPackage : KeyPackage) (clientConfig : ClientConfig) (currentTime : ℤ) :
    Except MlsError Unit := do
  let signer ← leafAtSigner tree gi.signer
  let credentialVerified ← clientConfig.authService.validateCredential signer.credential
    signer.signaturePublicKey none
  if !credentialVerified then throw (validationError "Could not validate credential")
  else do
    let groupInfoSignatureVerified ←
      verifyGroupInfoSignature gi signer.signaturePublicKey cs.signature
    if !groupInfoSignatureVerified then
      throw (cryptoVerificationError "Could not verify groupInfo signature")
    else if gi.groupContext.cipherSuite ≠ keyPackage.cipherSuite then
      throw (validationError
        "cipher suite in the GroupInfo does not match the cipher_suite in the KeyPackage")
    else if gi.groupContext.version ≠ keyPackage.version then
      throw (validationError
        "version in the GroupInfo does not match the version in the KeyPackage")
    else do
      let treeError ← validateRatchetTree tree gi.groupContext clientConfig.lifetimeConfig
        clientConfig.authService gi.groupContext.treeHash cs currentTime
      throwIfDefined treeError

/-- The joiner's own keys, with those of the path secret it was sent. Where its common
ancestor with the signer does not list it as unmerged, it has to be sent one. -/
def joinerPrivatePath (cs : CiphersuiteImpl) (tree : RatchetTree) (newLeaf signer : ℕ)
    (hpkePrivateKey : Bytes) (pathSecret : Option Bytes) : Except MlsError PrivateKeyPath := do
  let privateKeyPath : PrivateKeyPath := {
    leafIndex := newLeaf
    privateKeys := Record.empty.set (leafToNodeIndex newLeaf) hpkePrivateKey }
  let ancestorNodeIndex ← firstCommonAncestor tree newLeaf signer
  match pathSecret with
  | some pathSecret =>
    deriveWelcomePrivateKeyPath tree signer ancestorNodeIndex pathSecret privateKeyPath cs
  | none =>
    match nodeAt tree ancestorNodeIndex with
    | some (.parent parent) =>
      if !parent.unmergedLeaves.contains newLeaf then
        throw (validationError "Welcome is missing a required path_secret")
      else pure privateKeyPath
    | _ => pure privateKeyPath

structure JoinGroupResult (sig : Signature) where
  state : ClientState sig
  groupInfo : GroupInfo

/-- What a join reads besides the Welcome and the joiner's keys. -/
structure JoinOptions (sig : Signature) where
  ratchetTree : Option RatchetTree := none
  resumingFromState : Option (ClientState sig) := none
  clientConfig : ClientConfig
  expectedResumption : Option ExpectedResumption := none

/-- What a Welcome holds for the owner of a key package. -/
structure OpenedWelcome where
  groupSecrets : GroupSecrets
  pskSecret : Bytes
  pskIds : List PreSharedKeyID
  groupInfo : GroupInfo

/-- The part of `joinGroupWithGroupInfo` that decrypts. -/
def openWelcome (cs : CiphersuiteImpl) (welcome : Welcome) (keyPackage : KeyPackage)
    (initPrivateKey : Bytes) (pskSearch : PskIndex) : Except MlsError OpenedWelcome := do
  let keyPackageRef ← makeKeyPackageRef keyPackage cs.hash
  let privKey ← cs.hpke.importPrivateKey initPrivateKey
  let groupSecrets ← decryptGroupSecrets cs.hpke privKey keyPackageRef welcome
  match groupSecrets with
  | none => throw (codecError "Could not decode group secrets")
  | some groupSecrets => do
    let (pskSecret, pskIds) ← accumulatePskSecret groupSecrets.psks pskSearch cs
      (List.replicate cs.kdf.size 0)
    let gi ← decryptGroupInfo welcome groupSecrets.joinerSecret pskSecret cs
    match gi with
    | none => throw (codecError "Could not decode group info")
    | some gi => pure {
        groupSecrets := groupSecrets
        pskSecret := pskSecret
        pskIds := pskIds
        groupInfo := gi }

/-- The checks on the GroupInfo before the tree is looked at. -/
def validateWelcome {sig : Signature} (opened : OpenedWelcome) (keyPackage : KeyPackage)
    (options : JoinOptions sig) : Except MlsError Unit := do
  let gc := opened.groupInfo.groupContext
  let psks := resumptionPsksRequiringPriorState opened.pskIds
  validateExpectedResumption options.expectedResumption psks
  psks.forM (validateResumptionPsk options.resumingFromState gc psks.length)
  if !extensionsSupportedByCapabilities gc.extensions keyPackage.leafNode.leaf.capabilities then
    throw (validationError "client does not support every extension in the GroupContext")
  else do
    let externalSendersError ←
      validateExternalSenders gc.extensions options.clientConfig.authService
    throwIfDefined externalSendersError

/-- The joiner's leaf in the tree. -/
def joinerLeaf (tree : RatchetTree) (leafNode : LeafNode) : Except MlsError ℕ := do
  let newLeaf ← findLeafIndex tree leafNode
  match newLeaf with
  | none => throw (validationError "Could not find own leaf when processing welcome")
  | some newLeaf => pure newLeaf

/-- The part of `joinGroupWithGroupInfo` behind the checks on the tree. -/
def enterGroup (cs : CiphersuiteImpl) (opened : OpenedWelcome) (tree : RatchetTree)
    (keyPackage : KeyPackage) (privateKeys : PrivateKeyPackage cs.signature)
    (clientConfig : ClientConfig) : Except MlsError (JoinGroupResult cs.signature) := do
  let gi := opened.groupInfo
  let joinerSecret := opened.groupSecrets.joinerSecret
  let newLeaf ← joinerLeaf tree keyPackage.leafNode.leaf
  let updatedPkp ← joinerPrivatePath cs tree newLeaf gi.signer privateKeys.hpkePrivateKey
    opened.groupSecrets.pathSecret
  let derived ← deriveKeySchedule joinerSecret opened.pskSecret gi.groupContext cs.kdf
  let confirmationTagVerified ←
    verifyGroupInfoConfirmationTag gi joinerSecret opened.pskSecret cs
  if !confirmationTagVerified then
    throw (cryptoVerificationError "Could not verify confirmation tag")
  else do
    let secretTree ← createSecretTree (leafWidth tree.length) derived.encryptionSecret cs.kdf
    pure {
      state := {
        groupContext := gi.groupContext
        ratchetTree := tree
        privatePath := updatedPkp
        signaturePrivateKey := privateKeys.signaturePrivateKey
        confirmationTag := gi.confirmationTag
        unappliedProposals := emptyUnappliedProposals
        pendingUpdateKeys := none
        keySchedule := derived.keySchedule
        secretTree := secretTree
        historicalReceiverData := .empty
        groupActiveState := .active
        clientConfig := clientConfig }
      groupInfo := gi }

def joinGroupWithGroupInfo (cs : CiphersuiteImpl) (welcome : Welcome) (keyPackage : KeyPackage)
    (privateKeys : PrivateKeyPackage cs.signature) (pskSearch : PskIndex)
    (options : JoinOptions cs.signature) (currentTime : ℤ) :
    Except MlsError (JoinGroupResult cs.signature) :=
  match options.expectedResumption, options.resumingFromState with
  | some expected, none => throw (usageError s!"A {expected.toString} join needs the prior state")
  | _, _ => do
    let opened ← openWelcome cs welcome keyPackage privateKeys.initPrivateKey pskSearch
    validateWelcome opened keyPackage options
    let tree ← joinedTree opened.groupInfo options.ratchetTree
    validateJoinedTree cs opened.groupInfo tree keyPackage options.clientConfig currentTime
    throwIfDefined (validateBranchMembers options.resumingFromState
      (resumptionPsksRequiringPriorState opened.pskIds) tree
      options.clientConfig.keyPackageEqualityConfig)
    enterGroup cs opened tree keyPackage privateKeys options.clientConfig

def joinGroup (cs : CiphersuiteImpl) (welcome : Welcome) (keyPackage : KeyPackage)
    (privateKeys : PrivateKeyPackage cs.signature) (pskSearch : PskIndex)
    (options : JoinOptions cs.signature) (currentTime : ℤ) :
    Except MlsError (ClientState cs.signature) := do
  let result ←
    joinGroupWithGroupInfo cs welcome keyPackage privateKeys pskSearch options currentTime
  pure result.state

/-! ## Creating a group -/

/-- The epoch secret is `randomBytes(kdf.size)`. -/
def createGroup (cs : CiphersuiteImpl) (groupId : Bytes) (keyPackage : KeyPackage)
    (privateKeyPackage : PrivateKeyPackage cs.signature) (extensions : List Extension)
    (clientConfig : ClientConfig) (epochSecret : Bytes) :
    Except MlsError (ClientState cs.signature) := do
  let ratchetTree : RatchetTree := [some (.leaf keyPackage.leafNode.leaf)]
  let treeHash ← treeHashRoot ratchetTree cs.hash
  let groupContext : GroupContext := {
    version := .mls10
    cipherSuite := cs.name
    epoch := 0
    treeHash := treeHash
    groupId := groupId
    extensions := extensions
    confirmedTranscriptHash := [] }
  let externalSendersError ← validateExternalSenders extensions clientConfig.authService
  throwIfDefined externalSendersError
  let derived ← deriveEpochKeys epochSecret cs.kdf
  let confirmationTag := createConfirmationTag derived.keySchedule.confirmationKey [] cs.hash
  let secretTree ← createSecretTree 1 derived.encryptionSecret cs.kdf
  pure {
    ratchetTree := ratchetTree
    keySchedule := derived.keySchedule
    secretTree := secretTree
    privatePath := {
      leafIndex := 0
      privateKeys := Record.empty.set 0 privateKeyPackage.hpkePrivateKey }
    signaturePrivateKey := privateKeyPackage.signaturePrivateKey
    unappliedProposals := emptyUnappliedProposals
    pendingUpdateKeys := none
    historicalReceiverData := .empty
    groupContext := groupContext
    confirmationTag := confirmationTag
    groupActiveState := .active
    clientConfig := clientConfig }

/-! ## Joining from outside -/

/-- The key stands alone, with its length. -/
def decodeExternalPub (extensionData : Bytes) : Except MlsError Bytes :=
  let malformed := validationError "external_pub is not a length-prefixed HPKE public key"
  match decodeVarLenData extensionData 0 with
  | .ok (some (key, length)) => if length ≠ extensionData.length then throw malformed else pure key
  | .ok none => throw malformed
  | .error e => if e.name = .CodecError then throw malformed else throw e

/-- The loop over the tree for the joiner's former leaf. -/
def findFormerLeaf (config : KeyPackageEqualityConfig) (keyPackage : KeyPackage)
    (tree : RatchetTree) : Option ℕ :=
  tree.findIdx? fun node => match node with
    | some (.leaf leaf) => config.compareKeyPackageToLeafNode keyPackage leaf
    | _ => false

/-- The leaf a resync replaces. -/
def formerLeafIndex (resync : Bool) (config : KeyPackageEqualityConfig) (keyPackage : KeyPackage)
    (tree : RatchetTree) : Except MlsError (Option ℕ) :=
  if resync then
    match findFormerLeaf config keyPackage tree with
    | none => throw (validationError "resync external join: no prior leaf matches this credential")
    | some foundNodeIndex => do
      let leafIndex ← nodeToLeafIndex foundNodeIndex
      pure (some leafIndex)
  else pure none

def withoutFormerLeaf (tree : RatchetTree) : Option ℕ → Except MlsError RatchetTree
  | some formerLeafIndex => removeLeafNode tree formerLeafIndex
  | none => pure tree

/-- The random bytes one external join draws. -/
structure ExternalCoins where
  exportSecret : Bytes
  path : PathCoins
  signature : Bytes

structure ExternalJoin (sig : Signature) where
  publicMessage : PublicMessage
  newState : ClientState sig

/-- The checks of an external join, up to the tree it joins. -/
def validateExternalJoin (cs : CiphersuiteImpl) (groupInfo : GroupInfo) (tree : Option RatchetTree)
    (clientConfig : ClientConfig) (currentTime : ℤ) : Except MlsError RatchetTree := do
  let ratchetTree ← joinedTree groupInfo tree
  let treeError ← validateRatchetTree ratchetTree groupInfo.groupContext
    clientConfig.lifetimeConfig clientConfig.authService groupInfo.groupContext.treeHash cs
    currentTime
  throwIfDefined treeError
  let signaturePublicKey ← getSignaturePublicKeyFromLeafIndex ratchetTree groupInfo.signer
  let signerCredential ← getCredentialFromLeafIndex ratchetTree groupInfo.signer
  let credentialVerified ← clientConfig.authService.validateCredential signerCredential
    signaturePublicKey none
  if !credentialVerified then throw (validationError "Could not validate credential")
  else do
    let groupInfoSignatureVerified ←
      verifyGroupInfoSignature groupInfo signaturePublicKey cs.signature
    if !groupInfoSignatureVerified then
      throw (cryptoVerificationError "Could not verify groupInfo Signature")
    else pure ratchetTree

/-- The key of the `external_pub` extension, once it has been validated. -/
def externalPubKey (cs : CiphersuiteImpl) (groupInfo : GroupInfo) (keyPackage : KeyPackage)
    (clientConfig : ClientConfig) : Except MlsError Bytes :=
  match findExtension groupInfo.extensions .external_pub with
  | none => throw (usageError "Could not find external_pub extension")
  | some externalPub =>
    if !extensionsSupportedByCapabilities groupInfo.groupContext.extensions
        keyPackage.leafNode.leaf.capabilities then
      throw (usageError "client does not support every extension in the GroupContext")
    else do
      let externalSendersError ←
        validateExternalSenders groupInfo.groupContext.extensions clientConfig.authService
      throwIfDefined externalSendersError
      let key ← decodeExternalPub externalPub.extensionData
      let keyError ← validateHpkePublicKey key groupInfo.groupContext cs.hpke "external_pub"
      throwIfDefined keyError
      pure key

def externalProposals (former : Option ℕ) (kemOutput : Bytes) : List Proposal :=
  match former with
  | some formerLeafIndex => [.remove formerLeafIndex, .external_init kemOutput]
  | none => [.external_init kemOutput]

def joinGroupExternal (cs : CiphersuiteImpl) (groupInfo : GroupInfo) (keyPackage : KeyPackage)
    (privateKeys : PrivateKeyPackage cs.signature) (resync : Bool) (tree : Option RatchetTree)
    (clientConfig : ClientConfig) (authenticatedData : Bytes) (coins : ExternalCoins)
    (currentTime : ℤ) : Except MlsError (ExternalJoin cs.signature) := do
  let externalPub ← externalPubKey cs groupInfo keyPackage clientConfig
  let exported ← exportSecret coins.exportSecret externalPub cs
  let ratchetTree ← validateExternalJoin cs groupInfo tree clientConfig currentTime
  let former ← formerLeafIndex resync clientConfig.keyPackageEqualityConfig keyPackage ratchetTree
  let updatedTree ← withoutFormerLeaf ratchetTree former
  let (treeWithNewLeafNode, newLeafNodeIndex) ← addLeafNode updatedTree keyPackage.leafNode.leaf
  let newLeafIndex ← nodeToLeafIndex newLeafNodeIndex
  let path ← createUpdatePath treeWithNewLeafNode newLeafIndex groupInfo.groupContext cs
    privateKeys.signaturePrivateKey coins.path
  let pathKeys ← toPrivateKeyPath (pathToPathSecrets path.pathSecrets) newLeafIndex cs none
  let exportedLeafKey ← cs.hpke.exportPrivateKey path.leafPrivateKey
  let commitSecret ← commitSecretOf path.pathSecrets cs.kdf
  let signed ← createContentCommitSignature groupInfo.groupContext .mls_public_message
    { proposals := (externalProposals former exported.enc).map .proposal
      path := some path.updatePath }
    .new_member_commit authenticatedData cs.signature coins.signature
    privateKeys.signaturePrivateKey
  let groupContext ← nextEpochContext groupInfo.groupContext .mls_public_message
    signed.framedContent signed.signature path.treeHash groupInfo.confirmationTag cs.hash
  let epochSecrets ← initializeEpoch exported.secret commitSecret groupContext
    (List.replicate cs.kdf.size 0) cs.kdf
  let confirmationTag := createConfirmationTag epochSecrets.keySchedule.confirmationKey
    groupContext.confirmedTranscriptHash cs.hash
  let secretTree ← createSecretTree (leafWidth path.tree.length) epochSecrets.encryptionSecret cs.kdf
  let msg ← protectPublicMessage epochSecrets.keySchedule.membershipKey groupContext {
    wireformat := .mls_public_message
    content := signed.framedContent
    auth := { signature := signed.signature, content := .commit confirmationTag } } cs
  pure {
    publicMessage := msg
    newState := {
      ratchetTree := path.tree
      groupContext := groupContext
      secretTree := secretTree
      privatePath := updateLeafKey pathKeys exportedLeafKey
      confirmationTag := confirmationTag
      historicalReceiverData := .empty
      signaturePrivateKey := privateKeys.signaturePrivateKey
      keySchedule := epochSecrets.keySchedule
      unappliedProposals := emptyUnappliedProposals
      pendingUpdateKeys := none
      groupActiveState := .active
      clientConfig := clientConfig } }

/-! ## Members without secrets -/

def plainConfig : ClientConfig where
  keyRetentionConfig := defaultKeyRetentionConfig
  lifetimeConfig := defaultLifetimeConfig
  keyPackageEqualityConfig := defaultKeyPackageEqualityConfig
  paddingConfig := .alwaysPad 0
  authService := unsafeAcceptAllAuthenticationService
  supportedCustomProposalTypes := []
  maxPendingProposals := defaultMaxPendingProposals

/-- The leaf of a member of `plainSuite` whose keys are its name, not yet signed. -/
def plainLeaf (id : UInt8) : LeafNode where
  hpkePublicKey := [id]
  signaturePublicKey := [id]
  credential := .basic [id]
  capabilities := {
    versions := [.mls10]
    ciphersuites := []
    extensions := []
    proposals := []
    credentials := [.basic] }
  info := .key_package { notBefore := 0, notAfter := 0 }
  extensions := []
  signature := []

def plainKeyPackage (id : UInt8) : Except MlsError KeyPackage := do
  let leafSignature ← signLeafNodeTBS (plainLeaf id) .key_package plainSuite.signature [] [id]
  let tbs : KeyPackageTBS := {
    version := .mls10
    cipherSuite := plainSuite.name
    initKey := [id, id]
    leafNode := {
      leaf := { plainLeaf id with signature := leafSignature }
      lifetime := { notBefore := 0, notAfter := 0 }
      source := rfl }
    extensions := [] }
  let encoded ← encodeKeyPackageTBS tbs
  let signature ← signWithLabel plainSuite.signature [] [id] "KeyPackageTBS" encoded
  pure { tbs with signature := signature }

def plainPrivateKeys (id : UInt8) : PrivateKeyPackage plainSuite.signature where
  initPrivateKey := [id, id]
  hpkePrivateKey := [id]
  signaturePrivateKey := ([id] : Bytes)

def plainCoins (pathSecret : Bytes) : CommitCoins where
  path := ⟨pathSecret, [], fun _ => []⟩
  signature := []
  reuseGuard := [0, 0, 0, 0]
  groupInfo := []
  welcome _ := []

/-- The group a member creates, and the commit by which it adds others. -/
def plainGroupOf (id : UInt8) (others : List UInt8) :
    Except MlsError (CreateCommitResult plainSuite.signature) := do
  let keyPackage ← plainKeyPackage id
  let added ← others.mapM plainKeyPackage
  let group ← createGroup plainSuite [] keyPackage (plainPrivateKeys id) [] plainConfig []
  createCommit plainSuite group emptyPskIndex { extraProposals := added.map .add } (plainCoins []) 0

def sentWelcome (group : CreateCommitResult plainSuite.signature) : Except MlsError Welcome :=
  match group.welcome with
  | none => throw (usageError "No member was added")
  | some welcome => pure welcome

/-- What the first member hands out for external joins. -/
def plainGroupInfo (state : ClientState plainSuite.signature) : Except MlsError GroupInfo :=
  createGroupInfo state.groupContext state.confirmationTag 0
    [{ extensionType := .default .external_pub, extensionData := [1, 9] }] plainSuite.signature []
    ([1] : Bytes)

/-- A client joins a tree on its own. -/
def plainExternalJoin (id : UInt8) (groupInfo : GroupInfo) (tree : RatchetTree) :
    Except MlsError (ExternalJoin plainSuite.signature) := do
  let keyPackage ← plainKeyPackage id
  joinGroupExternal plainSuite groupInfo keyPackage (plainPrivateKeys id) false (some tree)
    plainConfig [] ⟨[], ⟨[id], [], fun _ => []⟩, []⟩ 0

end WebcryptoMls
