import WebcryptoMls.PrivatePaths

/-!
# Processing proposals

What a commit's proposals do to the tree. They are grouped by type, checked as a
whole, and applied Updates first, then Removes, then Adds; an external commit's are
checked and applied on their own.
-/
namespace WebcryptoMls
open Records

variable {s : Signature}

/-! ## Pending proposals -/

def emptyUnappliedProposals : UnappliedProposals := .empty

def findUnappliedProposal (ref : Bytes) (proposals : UnappliedProposals) :
    Option ProposalWithSender :=
  proposals.get ref

def addUnappliedProposal (ref : Bytes) (proposals : UnappliedProposals) (proposal : Proposal)
    (senderLeafIndex : Option ℕ) (senderType : SenderTypeName) : UnappliedProposals :=
  proposals.set ref
    { proposal := proposal, senderLeafIndex := senderLeafIndex, senderType := senderType }

def checkPendingCapacity (proposals : UnappliedProposals) (max : ℤ) : Option MlsError :=
  if max ≤ 0 then some (validationError "pending proposals are disabled")
  else if proposals.size ≥ max then some (validationError "too many pending proposals")
  else none

def checkCanSendHandshakeMessages (state : ClientState s) : Except MlsError Unit :=
  match state.groupActiveState with
  | .suspendedPendingReinit _ =>
    throw (usageError "Cannot send messages while Group is suspended pending reinit")
  | .removedFromGroup =>
    throw (usageError "Cannot send messages after being removed from group")
  | .active => pure ()

/-! ## Grouping -/

/-- A proposal's content and who sent it. -/
structure Sent (α : Type) where
  senderLeafIndex : Option ℕ
  proposal : α

structure Proposals where
  add : List (Sent KeyPackage)
  update : List (Sent LeafNodeUpdate)
  remove : List (Sent ℕ)
  psk : List (Sent PreSharedKeyID)
  reinit : List (Sent Reinit)
  external_init : List (Sent Bytes)
  group_context_extensions : List (Sent (List Extension))

def emptyProposals : Proposals := ⟨[], [], [], [], [], [], []⟩

/-- A custom proposal is in no group. -/
def groupProposal (acc : Proposals) (cur : ProposalWithSender) : Proposals :=
  match cur.proposal with
  | .add keyPackage => { acc with add := acc.add ++ [⟨cur.senderLeafIndex, keyPackage⟩] }
  | .update leafNode => { acc with update := acc.update ++ [⟨cur.senderLeafIndex, leafNode⟩] }
  | .remove removed => { acc with remove := acc.remove ++ [⟨cur.senderLeafIndex, removed⟩] }
  | .psk preSharedKeyId => { acc with psk := acc.psk ++ [⟨cur.senderLeafIndex, preSharedKeyId⟩] }
  | .reinit reinit => { acc with reinit := acc.reinit ++ [⟨cur.senderLeafIndex, reinit⟩] }
  | .external_init kemOutput =>
    { acc with external_init := acc.external_init ++ [⟨cur.senderLeafIndex, kemOutput⟩] }
  | .group_context_extensions extensions => { acc with
      group_context_extensions := acc.group_context_extensions ++ [⟨cur.senderLeafIndex, extensions⟩] }
  | .custom _ _ => acc

def groupProposals (allProposals : List ProposalWithSender) : Proposals :=
  allProposals.foldl groupProposal emptyProposals

def isCustomProposal : Proposal → Bool
  | .custom _ _ => true
  | _ => false

def flattenExtensions (groupContextExtensions : List (Sent (List Extension))) : List Extension :=
  groupContextExtensions.flatMap Sent.proposal

/-- The extensions a commit's own Updates and Adds are checked against. -/
def groupContextAfterExtensions (groupContext : GroupContext) (p : Proposals) : GroupContext :=
  if p.group_context_extensions.length = 0 then groupContext
  else { groupContext with extensions := flattenExtensions p.group_context_extensions }

/-! ## Checks on a commit's proposals -/

/-- Two entries at different places are related. -/
def someTwo {α : Type} (related : α → α → Bool) (l : List α) : Bool :=
  l.zipIdx.any fun (a, indexA) => l.zipIdx.any fun (b, indexB) => related a b && indexA != indexB

def samePskId (a b : Sent PreSharedKeyID) : Except MlsError Bool := do
  let x ← encodePskId a.proposal
  let y ← encodePskId b.proposal
  pure (constantTimeEqual x y)

def validateNoDuplicatePskIds (psk : List (Sent PreSharedKeyID)) :
    Except MlsError (Option MlsError) := do
  let multiplePskWithSamePskId ← psk.zipIdx.anyM fun (a, indexA) =>
    psk.zipIdx.anyM fun (b, indexB) => do
      let same ← samePskId a b
      pure (same && indexA != indexB)
  if multiplePskWithSamePskId then
    pure (some (validationError
      "Commit cannot contain PreSharedKey proposals that reference the same PreSharedKeyID"))
  else pure none

/-- A resumption key of another usage is only for a new group's first commit. -/
def validatePskProposals (pskIds : List PreSharedKeyID) (groupContext : GroupContext) :
    Option MlsError :=
  let disallowed := pskIds.any fun id => match id.info with
    | .resumption info => info.usage ≠ .application ∧ groupContext.epoch ≠ 0
    | .external _ => false
  if disallowed then
    some (validationError ("PreSharedKey proposal must reference an external PSK, an " ++
      "application-usage resumption PSK, or a reinit/branch-usage resumption PSK in the " ++
      "group-creating commit"))
  else none

def validatePskNonce (pskId : PreSharedKeyID) (cs : CiphersuiteImpl) : Option MlsError :=
  if pskId.pskNonce.length ≠ cs.kdf.size then
    some (validationError "PreSharedKey proposal nonce must be KDF.Nh bytes")
  else none

def validateRemove (removed : ℕ) (tree : RatchetTree) : Option MlsError :=
  if nodeAt tree (leafToNodeIndex removed) = none then
    some (validationError "Tried to remove empty leaf node")
  else none

def validateReinit (allProposals : List ProposalWithSender) (reinit : Reinit) (gc : GroupContext) :
    Option MlsError :=
  if allProposals.length ≠ 1 then
    some (validationError "Reinit proposal needs to be commited by itself")
  else if protocolVersions reinit.version < protocolVersions gc.version then
    some (validationError
      "A ReInit proposal cannot use a version less than the version for the current group")
  else none

def validateExternalInitSenderType (senderType : SenderTypeName) (externalInitCount : ℕ) :
    Option MlsError :=
  if externalInitCount > 0 ∧ senderType ≠ .new_member_commit then
    some (validationError
      "external_init proposal is only permitted in a commit from a new_member_commit sender")
  else if senderType = .new_member_commit ∧ externalInitCount ≠ 1 then
    some (validationError ("A commit from a new_member_commit sender must contain exactly one " ++
      "external_init proposal"))
  else none

def validateExternalInit (grouped : Proposals) : Option MlsError :=
  if grouped.external_init.length > 1 then
    some (validationError "Cannot contain more than one external_init proposal")
  else if grouped.remove.length > 1 then
    some (validationError "Cannot contain more than one remove proposal")
  else if grouped.add.length > 0 ∨ grouped.group_context_extensions.length > 0 ∨
      grouped.reinit.length > 0 ∨ grouped.update.length > 0 then
    some (validationError "Invalid proposals")
  else none

/-- An Update or a Remove applies to a leaf another one applies to. -/
def multipleUpdateRemoveForSameLeaf (p : Proposals) : Bool :=
  someTwo (fun a b => a.senderLeafIndex == b.senderLeafIndex) p.update ||
  (p.update.any fun u => p.remove.any fun r => some r.proposal == u.senderLeafIndex) ||
  someTwo (fun a b => b.proposal == a.proposal) p.remove

/-- The leaf an Add's key package stands for is in the tree and not removed. -/
def addsExistingClient (config : KeyPackageEqualityConfig) (remove : List (Sent ℕ))
    (keyPackage : KeyPackage) : Option Node × ℕ → Except MlsError Bool
  | (some (.leaf leaf), nodeIndex) =>
    if config.compareKeyPackageToLeafNode keyPackage leaf then
      remove.allM fun r => do
        let leafIndex ← nodeToLeafIndex nodeIndex
        pure (r.proposal != leafIndex)
    else pure false
  | _ => pure false

/-- The round of `postMutationLeafCapabilities` for one node. -/
def leafCapabilitiesAfter (p : Proposals) :
    Option Node × ℕ → Except MlsError (Option Capabilities)
  | (some (.leaf leaf), nodeIndex) => do
    let leafIndex ← nodeToLeafIndex nodeIndex
    if p.remove.any fun r => r.proposal == leafIndex then pure none
    else match p.update.find? fun u => u.senderLeafIndex == some leafIndex with
      | some update => pure (some update.proposal.leaf.capabilities)
      | none => pure (some leaf.capabilities)
  | _ => pure none

/-- The capabilities of every leaf that is left once the proposals are applied. -/
def postMutationLeafCapabilities (tree : RatchetTree) (p : Proposals) :
    Except MlsError (List Capabilities) := do
  let capabilities ← tree.zipIdx.mapM (leafCapabilitiesAfter p)
  pure (capabilities.filterMap id)

/-- The checks of `validateProposals` on required capabilities and external senders. -/
def validateRequiredCapabilities (p : Proposals) (allExtensions : List Extension)
    (remainingCapabilities : List Capabilities) (authService : AuthenticationService) :
    Except MlsError (Option MlsError) :=
  match findExtension allExtensions .required_capabilities with
  | none => validateExternalSenders allExtensions authService
  | some requiredCapabilities => do
    let caps ← decodeRequiredCapabilities requiredCapabilities.extensionData 0
    match caps with
    | none => pure (some (codecError "Could not decode required_capabilities"))
    | some (caps, _) =>
      if !(remainingCapabilities.all (capabiltiesAreSupported caps)) then
        pure (some (validationError "Not all members support required capabilities"))
      else if !(p.add.all fun a =>
          capabiltiesAreSupported caps a.proposal.leafNode.leaf.capabilities) then
        pure (some (validationError
          "Commit contains add proposals of member without required capabilities"))
      else validateExternalSenders allExtensions authService

/-- The checks of `validateProposals` on pre-shared keys and extensions. -/
def validateProposalExtensions (p : Proposals) (groupContext : GroupContext)
    (authService : AuthenticationService) (tree : RatchetTree) :
    Except MlsError (Option MlsError) := do
  let duplicatePskError ← validateNoDuplicatePskIds p.psk
  match duplicatePskError with
  | some e => pure (some e)
  | none =>
    match validatePskProposals (p.psk.map Sent.proposal) groupContext with
    | some e => pure (some e)
    | none =>
      if p.group_context_extensions.length > 1 then
        pure (some (validationError
          "Commit cannot contain multiple GroupContextExtensions proposals"))
      else do
        let allExtensions := flattenExtensions p.group_context_extensions
        let remainingCapabilities ← postMutationLeafCapabilities tree p
        if allExtensions.length > 0 ∧
            !(remainingCapabilities.all (extensionsSupportedByCapabilities allExtensions)) then
          pure (some (validationError
            "Existing member doesn't support extension in proposed GroupContextExtensions"))
        else validateRequiredCapabilities p allExtensions remainingCapabilities authService

def validateProposals (p : Proposals) (committerLeafIndex : Option ℕ)
    (groupContext contextAfterExtensions : GroupContext) (config : KeyPackageEqualityConfig)
    (authService : AuthenticationService) (tree : RatchetTree) :
    Except MlsError (Option MlsError) :=
  if p.update.any fun o =>
      o.senderLeafIndex.isSome && o.senderLeafIndex == committerLeafIndex then
    pure (some (validationError
      "Commit cannot contain an update proposal sent by committer"))
  else if p.remove.any fun o => some o.proposal == committerLeafIndex then
    pure (some (validationError
      "Commit cannot contain a remove proposal removing committer"))
  else if multipleUpdateRemoveForSameLeaf p then
    pure (some (validationError ("Commit cannot contain multiple update and/or remove " ++
      "proposals that apply to the same leaf")))
  else if someTwo (fun a b => config.compareKeyPackages a.proposal b.proposal) p.add then
    pure (some (validationError ("Commit cannot contain multiple Add proposals that contain " ++
      "KeyPackages that represent the same client")))
  else do
    let addsContainExistingKeypackage ← p.add.anyM fun a =>
      tree.zipIdx.anyM (addsExistingClient config p.remove a.proposal)
    if addsContainExistingKeypackage then
      pure (some (validationError
        "Commit cannot contain an Add proposal for someone already in the group"))
    else if !(p.add.all fun a => extensionsSupportedByCapabilities
        contextAfterExtensions.extensions a.proposal.leafNode.leaf.capabilities) then
      pure (some (validationError
        "Added leaf node that doesn't support extension in GroupContext"))
    else validateProposalExtensions p groupContext authService tree

/-! ## Applying proposals to the tree -/

/-- What every check of a leaf reads besides the leaf and the tree. -/
structure TreeMutations where
  gc : GroupContext
  sentByClient : Bool
  authService : AuthenticationService
  lifetimeConfig : LifetimeConfig
  currentTime : ℤ

/-- The round of `applyTreeMutations` for one Update. -/
def applyUpdate (cs : CiphersuiteImpl) (m : TreeMutations) (ratchetTree tree : RatchetTree)
    (update : Sent LeafNodeUpdate) : Except MlsError RatchetTree :=
  match update.senderLeafIndex with
  | none => throw (internalError "No sender index found for update proposal")
  | some senderLeafIndex => do
    let leafNode := update.proposal.leaf
    throwIfDefined (validateUpdateRotatesKey leafNode senderLeafIndex ratchetTree)
    let leafError ← validateLeafNodeUpdateOrCommit leafNode senderLeafIndex m.gc tree
      m.authService cs.signature cs.hpke (credentialAtLeaf tree senderLeafIndex)
      (summarizeLeaves tree)
    throwIfDefined leafError
    updateLeafNode tree leafNode senderLeafIndex

/-- The round for one Remove. -/
def applyRemove (ratchetTree tree : RatchetTree) (remove : Sent ℕ) : Except MlsError RatchetTree := do
  throwIfDefined (validateRemove remove.proposal ratchetTree)
  removeLeafNode tree remove.proposal

/-- The round for one Add. -/
def applyAdd (cs : CiphersuiteImpl) (m : TreeMutations)
    (acc : RatchetTree × List (ℕ × KeyPackage)) (add : Sent KeyPackage) :
    Except MlsError (RatchetTree × List (ℕ × KeyPackage)) := do
  let keyPackageError ← validateKeyPackage add.proposal m.gc acc.1 m.sentByClient m.lifetimeConfig
    m.authService cs.signature cs.hpke m.currentTime
  throwIfDefined keyPackageError
  let (updatedTree, leafNodeIndex) ← addLeafNode acc.1 add.proposal.leafNode.leaf
  let leafIndex ← nodeToLeafIndex leafNodeIndex
  pure (updatedTree, acc.2 ++ [(leafIndex, add.proposal)])

def applyTreeMutations (ratchetTree : RatchetTree) (grouped : Proposals) (m : TreeMutations)
    (cs : CiphersuiteImpl) : Except MlsError (RatchetTree × List (ℕ × KeyPackage)) := do
  let treeAfterUpdate ← grouped.update.foldlM (applyUpdate cs m ratchetTree) ratchetTree
  let treeAfterRemove ← grouped.remove.foldlM (applyRemove ratchetTree) treeAfterUpdate
  grouped.add.foldlM (applyAdd cs m) (treeAfterRemove, [])

def findBlankLeafNodeIndexOrExtend (tree : RatchetTree) : ℤ :=
  (findBlankLeafNodeIndex tree).getD (tree.length + 1)

inductive ApplyProposalsData where
  | memberCommit (addedLeafNodes : List (ℕ × KeyPackage)) (groupContext : GroupContext)
  | externalCommit (externalInitSecret : Bytes) (newMemberLeafIndex : ℕ)
      (priorCredential : Option Credential)
  | reinit (reinit : Reinit)

structure ApplyProposalsResult where
  tree : RatchetTree
  pskSecret : Bytes
  pskIds : List PreSharedKeyID
  needsUpdatePath : Bool
  additionalResult : ApplyProposalsData
  selfRemoved : Bool
  allProposals : List ProposalWithSender

/-- A proposal by value was sent by the committer. -/
def resolveProposal (unappliedProposals : UnappliedProposals) (committerLeafIndex : Option ℕ)
    (senderType : SenderTypeName) : ProposalOrRef → Except MlsError ProposalWithSender
  | .proposal proposal => pure {
      proposal := proposal
      senderLeafIndex := committerLeafIndex
      senderType := senderType }
  | .reference reference =>
    match findUnappliedProposal reference unappliedProposals with
    | some p => pure p
    | none => throw (validationError "Could not find proposal with supplied reference")

def isUnsupportedCustomProposal (supported : List ℤ) (p : ProposalWithSender) : Bool :=
  match p.proposal with
  | .custom proposalType _ => !supported.contains proposalType
  | _ => false

def IMPORT_SECRET_CONTEXT : Bytes := encodeText "MLS 1.0 external init secret"

def exportSecret (coins publicKey : Bytes) (cs : CiphersuiteImpl) :
    Except MlsError ExportedSecret := do
  let key ← cs.hpke.importPublicKey publicKey
  cs.hpke.exportSecret coins key IMPORT_SECRET_CONTEXT cs.kdf.size []

def importSecret (privateKey kemOutput : Bytes) (cs : CiphersuiteImpl) : Except MlsError Bytes := do
  let key ← cs.hpke.importPrivateKey privateKey
  cs.hpke.importSecret key IMPORT_SECRET_CONTEXT kemOutput cs.kdf.size []

/-- The commit of a member, without a ReInit. -/
def applyMemberProposals (cs : CiphersuiteImpl) (state : ClientState s)
    (allProposals : List ProposalWithSender) (grouped : Proposals)
    (committerLeafIndex : Option ℕ) (pskSearch : PskIndex) (sentByClient : Bool)
    (currentTime : ℤ) : Except MlsError ApplyProposalsResult := do
  let contextAfterExtensions := groupContextAfterExtensions state.groupContext grouped
  let proposalsError ← validateProposals grouped committerLeafIndex state.groupContext
    contextAfterExtensions state.clientConfig.keyPackageEqualityConfig
    state.clientConfig.authService state.ratchetTree
  throwIfDefined proposalsError
  let (mutatedTree, addedLeafNodes) ← applyTreeMutations state.ratchetTree grouped {
    gc := contextAfterExtensions
    sentByClient := sentByClient
    authService := state.clientConfig.authService
    lifetimeConfig := state.clientConfig.lifetimeConfig
    currentTime := currentTime } cs
  let (updatedPskSecret, pskIds) ← accumulatePskSecret (grouped.psk.map Sent.proposal) pskSearch cs
    (List.replicate cs.kdf.size 0)
  pure {
    tree := mutatedTree
    pskSecret := updatedPskSecret
    pskIds := pskIds
    needsUpdatePath := allProposals.length == 0 || grouped.update.length > 0 ||
      grouped.remove.length > 0 || grouped.group_context_extensions.length > 0 ||
      allProposals.any fun p => isCustomProposal p.proposal
    additionalResult := .memberCommit addedLeafNodes contextAfterExtensions
    selfRemoved := nodeAt mutatedTree (leafToNodeIndex state.privatePath.leafIndex) == none
    allProposals := allProposals }

/-- The leaf an external commit removes must be the joiner's own former one. -/
def validateExternalRemove (ratchetTree : RatchetTree) (newMemberLeafNode : Option LeafNode)
    (remove : List (Sent ℕ)) : Except MlsError (Option Credential) :=
  match remove with
  | [] => pure none
  | externalRemove :: _ => do
    throwIfDefined (validateRemove externalRemove.proposal ratchetTree)
    match newMemberLeafNode, leafAt ratchetTree externalRemove.proposal with
    | some newMemberLeafNode, some removedLeaf =>
      if constantTimeEqual removedLeaf.signaturePublicKey newMemberLeafNode.signaturePublicKey then
        pure (some removedLeaf.credential)
      else throw (validationError
        "External commit Remove must target the joiner's own prior leaf (resync)")
    | _, _ => throw (validationError
        "External commit Remove must target the joiner's own prior leaf (resync)")

def isReference : ProposalOrRef → Bool
  | .reference _ => true
  | .proposal _ => false

/-- The commit of a joiner, behind the check that every proposal is by value. -/
def applyExternalProposals (cs : CiphersuiteImpl) (state : ClientState s)
    (allProposals : List ProposalWithSender) (grouped : Proposals) (pskSearch : PskIndex)
    (newMemberLeafNode : Option LeafNode) : Except MlsError ApplyProposalsResult := do
  throwIfDefined (validateExternalInit grouped)
  throwIfDefined (validatePskProposals (grouped.psk.map Sent.proposal) state.groupContext)
  let duplicatePskError ← validateNoDuplicatePskIds grouped.psk
  throwIfDefined duplicatePskError
  let priorCredential ← validateExternalRemove state.ratchetTree newMemberLeafNode grouped.remove
  let treeAfterRemove ← grouped.remove.foldlM
    (fun tree remove => removeLeafNode tree remove.proposal) state.ratchetTree
  let (updatedPskSecret, pskIds) ← accumulatePskSecret (grouped.psk.map Sent.proposal) pskSearch cs
    (List.replicate cs.kdf.size 0)
  match grouped.external_init with
  | [] => throw (typeError "initProposal is undefined")
  | initProposal :: _ => do
    let (privateKey, _) ← cs.hpke.deriveKeyPair state.keySchedule.externalSecret
    let exported ← cs.hpke.exportPrivateKey privateKey
    let externalInitSecret ← importSecret exported initProposal.proposal cs
    let newMemberLeafIndex ← nodeToLeafIndex (findBlankLeafNodeIndexOrExtend treeAfterRemove)
    pure {
      tree := treeAfterRemove
      pskSecret := updatedPskSecret
      pskIds := pskIds
      needsUpdatePath := true
      additionalResult := .externalCommit externalInitSecret newMemberLeafIndex priorCredential
      selfRemoved := false
      allProposals := allProposals }

/-- The commit of a ReInit leaves the tree as it is. -/
def applyReinit (cs : CiphersuiteImpl) (state : ClientState s)
    (allProposals : List ProposalWithSender) (reinit : Reinit) :
    Except MlsError ApplyProposalsResult := do
  throwIfDefined (validateReinit allProposals reinit state.groupContext)
  pure {
    tree := state.ratchetTree
    pskSecret := List.replicate cs.kdf.size 0
    pskIds := []
    needsUpdatePath := false
    additionalResult := .reinit reinit
    selfRemoved := false
    allProposals := allProposals }

/-- The three kinds of commit. -/
def applyGroupedProposals (cs : CiphersuiteImpl) (state : ClientState s)
    (proposals : List ProposalOrRef) (allProposals : List ProposalWithSender)
    (committerLeafIndex : Option ℕ) (pskSearch : PskIndex) (sentByClient : Bool)
    (newMemberLeafNode : Option LeafNode) (currentTime : ℤ) :
    Except MlsError ApplyProposalsResult :=
  let grouped := groupProposals allProposals
  if grouped.external_init.length > 0 then
    if proposals.any isReference then
      throw (validationError "External commit cannot contain proposals by reference")
    else applyExternalProposals cs state allProposals grouped pskSearch newMemberLeafNode
  else match grouped.reinit with
    | reinit :: _ => applyReinit cs state allProposals reinit.proposal
    | [] => applyMemberProposals cs state allProposals grouped committerLeafIndex pskSearch
        sentByClient currentTime

def applyProposals (cs : CiphersuiteImpl) (state : ClientState s) (proposals : List ProposalOrRef)
    (committerLeafIndex : Option ℕ) (pskSearch : PskIndex) (sentByClient : Bool)
    (newMemberLeafNode : Option LeafNode) (senderType : SenderTypeName) (currentTime : ℤ) :
    Except MlsError ApplyProposalsResult := do
  let allProposals ← proposals.mapM
    (resolveProposal state.unappliedProposals committerLeafIndex senderType)
  match allProposals.find?
      (isUnsupportedCustomProposal state.clientConfig.supportedCustomProposalTypes) with
  | some unsupported => throw (validationError
      ("Cannot process commit referencing unsupported custom proposal type " ++
        proposalTypeName unsupported.proposal))
  | none => do
    throwIfDefined (validateExternalInitSenderType senderType
      (groupProposals allProposals).external_init.length)
    applyGroupedProposals cs state proposals allProposals committerLeafIndex pskSearch sentByClient
      newMemberLeafNode currentTime

/-! ## What a commit's proposals come to -/

section
variable {cs : CiphersuiteImpl} {state : ClientState s} {proposals : List ProposalOrRef}
  {allProposals : List ProposalWithSender} {grouped : Proposals} {committerLeafIndex : Option ℕ}
  {pskSearch : PskIndex} {sentByClient : Bool} {newMemberLeafNode : Option LeafNode}
  {senderType : SenderTypeName} {currentTime : ℤ} {result : ApplyProposalsResult}

theorem applyProposals_eq_ok (h : applyProposals cs state proposals committerLeafIndex pskSearch
      sentByClient newMemberLeafNode senderType currentTime = .ok result) :
    ∃ allProposals,
      proposals.mapM (resolveProposal state.unappliedProposals committerLeafIndex senderType) =
        .ok allProposals ∧
      validateExternalInitSenderType senderType
        (groupProposals allProposals).external_init.length = none ∧
      applyGroupedProposals cs state proposals allProposals committerLeafIndex pskSearch sentByClient
        newMemberLeafNode currentTime = .ok result := by
  obtain ⟨allProposals, hall, h⟩ := bind_eq_ok.mp h
  refine ⟨allProposals, hall, ?_⟩
  split at h
  · cases h
  · obtain ⟨_, hsender, h⟩ := bind_eq_ok.mp h
    exact ⟨throwIfDefined_eq_ok.mp hsender, h⟩

/-- A commit is a joiner's, a ReInit's or another member's. -/
theorem applyGroupedProposals_cases (h : applyGroupedProposals cs state proposals allProposals
      committerLeafIndex pskSearch sentByClient newMemberLeafNode currentTime = .ok result) :
    (groupProposals allProposals).external_init ≠ [] ∧
        applyExternalProposals cs state allProposals (groupProposals allProposals) pskSearch
          newMemberLeafNode = .ok result ∨
      (∃ reinit, applyReinit cs state allProposals reinit = .ok result) ∨
      applyMemberProposals cs state allProposals (groupProposals allProposals) committerLeafIndex
        pskSearch sentByClient currentTime = .ok result := by
  simp only [applyGroupedProposals] at h
  split_ifs at h with hexternal
  · exact .inl ⟨List.ne_nil_of_length_pos hexternal, h⟩
  · split at h
    · exact .inr (.inl ⟨_, h⟩)
    · exact .inr (.inr h)

theorem applyMemberProposals_eq_ok (h : applyMemberProposals cs state allProposals grouped
      committerLeafIndex pskSearch sentByClient currentTime = .ok result) :
    ∃ tree addedLeafNodes pskSecret pskIds, validateProposals grouped committerLeafIndex state.groupContext
        (groupContextAfterExtensions state.groupContext grouped)
        state.clientConfig.keyPackageEqualityConfig state.clientConfig.authService
        state.ratchetTree = .ok none ∧
      applyTreeMutations state.ratchetTree grouped {
        gc := groupContextAfterExtensions state.groupContext grouped
        sentByClient := sentByClient
        authService := state.clientConfig.authService
        lifetimeConfig := state.clientConfig.lifetimeConfig
        currentTime := currentTime } cs = .ok (tree, addedLeafNodes) ∧
      result = {
        tree := tree
        pskSecret := pskSecret
        pskIds := pskIds
        needsUpdatePath := allProposals.length == 0 || grouped.update.length > 0 ||
          grouped.remove.length > 0 || grouped.group_context_extensions.length > 0 ||
          allProposals.any fun p => isCustomProposal p.proposal
        additionalResult := .memberCommit addedLeafNodes
          (groupContextAfterExtensions state.groupContext grouped)
        selfRemoved := nodeAt tree (leafToNodeIndex state.privatePath.leafIndex) == none
        allProposals := allProposals } := by
  obtain ⟨proposalsError, hvalid, h⟩ := bind_eq_ok.mp h
  obtain ⟨_, hnone, h⟩ := bind_eq_ok.mp h
  obtain ⟨⟨tree, addedLeafNodes⟩, htree, h⟩ := bind_eq_ok.mp h
  obtain ⟨⟨pskSecret, pskIds⟩, -, h⟩ := bind_eq_ok.mp h
  rw [throwIfDefined_eq_ok.mp hnone] at hvalid
  exact ⟨tree, addedLeafNodes, pskSecret, pskIds, hvalid, htree, (Except.ok.inj h).symm⟩

theorem applyReinit_eq_ok {reinit : Reinit}
    (h : applyReinit cs state allProposals reinit = .ok result) :
    result.tree = state.ratchetTree ∧ result.additionalResult = .reinit reinit := by
  obtain ⟨_, -, h⟩ := bind_eq_ok.mp h
  obtain rfl := Except.ok.inj h
  exact ⟨rfl, rfl⟩

/-- An external commit only removes leaves before the joiner's is added. -/
theorem applyExternalProposals_eq_ok (h : applyExternalProposals cs state allProposals grouped
      pskSearch newMemberLeafNode = .ok result) :
    grouped.remove.foldlM (fun tree remove => removeLeafNode tree remove.proposal)
        state.ratchetTree = .ok result.tree ∧
      ∃ externalInitSecret newMemberLeafIndex priorCredential, result.additionalResult =
        .externalCommit externalInitSecret newMemberLeafIndex priorCredential := by
  obtain ⟨_, -, h⟩ := bind_eq_ok.mp h
  obtain ⟨_, -, h⟩ := bind_eq_ok.mp h
  obtain ⟨_, -, h⟩ := bind_eq_ok.mp h
  obtain ⟨_, -, h⟩ := bind_eq_ok.mp h
  obtain ⟨priorCredential, -, h⟩ := bind_eq_ok.mp h
  obtain ⟨treeAfterRemove, htree, h⟩ := bind_eq_ok.mp h
  obtain ⟨⟨pskSecret, pskIds⟩, -, h⟩ := bind_eq_ok.mp h
  dsimp only at h
  split at h
  · cases h
  · obtain ⟨⟨privateKey, _⟩, -, h⟩ := bind_eq_ok.mp h
    obtain ⟨exported, -, h⟩ := bind_eq_ok.mp h
    obtain ⟨externalInitSecret, -, h⟩ := bind_eq_ok.mp h
    obtain ⟨newMemberLeafIndex, -, h⟩ := bind_eq_ok.mp h
    obtain rfl := Except.ok.inj h
    exact ⟨htree, _, _, _, rfl⟩

end

/-! ## Receiving a proposal -/

/-- The required capabilities are left to the commit. -/
def withoutRequiredCapabilities (groupContext : GroupContext) : GroupContext :=
  { groupContext with
    extensions := groupContext.extensions.filter fun e =>
      e.extensionType ≠ .default .required_capabilities }

/-- A failed signature inside a proposal makes its content invalid. -/
def asValidationError (err : Option MlsError) : Option MlsError :=
  err.map fun err =>
    if err.name = .CryptoVerificationError then validationError err.message else err

/-- The round of `withoutLeavesMatching` for one node of the tree it is called with. -/
def removeMatching (matching : LeafNode → Bool) (acc : RatchetTree) :
    Option Node × ℕ → Except MlsError RatchetTree
  | (some (.leaf leaf), nodeIndex) =>
    if matching leaf then do
      let leafIndex ← nodeToLeafIndex nodeIndex
      removeLeafNode acc leafIndex
    else pure acc
  | _ => pure acc

def withoutLeavesMatching (tree : RatchetTree) (matching : LeafNode → Bool) :
    Except MlsError RatchetTree :=
  tree.zipIdx.foldlM (removeMatching matching) tree

def validateProposalOnReceipt (cs : CiphersuiteImpl) (state : ClientState s) (proposal : Proposal)
    (senderLeafIndex : Option ℕ) (sentByClient : Bool) (currentTime : ℤ) :
    Except MlsError (Option MlsError) :=
  match proposal with
  | .remove removed => pure (validateRemove removed state.ratchetTree)
  | .add kp => do
    let tree ← withoutLeavesMatching state.ratchetTree
      (state.clientConfig.keyPackageEqualityConfig.compareKeyPackageToLeafNode kp)
    let err ← validateKeyPackage kp (withoutRequiredCapabilities state.groupContext) tree
      sentByClient state.clientConfig.lifetimeConfig state.clientConfig.authService cs.signature
      cs.hpke currentTime
    pure (asValidationError err)
  | .update leafNode =>
    match senderLeafIndex with
    | none => pure (some (validationError "update proposal can only be sent by a member"))
    | some senderLeafIndex =>
      match validateUpdateRotatesKey leafNode.leaf senderLeafIndex state.ratchetTree with
      | some err => pure (some err)
      | none => do
        let err ← validateLeafNodeUpdateOrCommit leafNode.leaf senderLeafIndex
          (withoutRequiredCapabilities state.groupContext) state.ratchetTree
          state.clientConfig.authService cs.signature cs.hpke
          (credentialAtLeaf state.ratchetTree senderLeafIndex) (summarizeLeaves state.ratchetTree)
        pure (asValidationError err)
  | .psk preSharedKeyId =>
    match validatePskNonce preSharedKeyId cs with
    | some err => pure (some err)
    | none => pure (validatePskProposals [preSharedKeyId] state.groupContext)
  | .external_init _ => pure (some (validationError
      "external_init is only valid by value in an external commit"))
  | _ => pure none

def getSenderLeafNodeIndex : Sender → Option ℕ
  | .member leafIndex => some leafIndex
  | _ => none

def processProposal (cs : CiphersuiteImpl) (state : ClientState s) (content : AuthenticatedContent)
    (proposal : Proposal) (currentTime : ℤ) : Except MlsError (ClientState s) := do
  let senderLeafIndex := getSenderLeafNodeIndex content.content.sender
  throwIfDefined (checkPendingCapacity state.unappliedProposals state.clientConfig.maxPendingProposals)
  let proposalError ← validateProposalOnReceipt cs state proposal senderLeafIndex false currentTime
  throwIfDefined proposalError
  let ref ← makeProposalRef content cs.hash
  pure { state with
    unappliedProposals := addUnappliedProposal ref state.unappliedProposals proposal
      senderLeafIndex content.content.sender.senderType }

end WebcryptoMls
