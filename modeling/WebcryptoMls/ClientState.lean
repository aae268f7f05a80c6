import WebcryptoMls.SecretTree

/-!
# Client state

Everything a member keeps of a group. A record keyed by the base64 of a reference
is keyed by the reference itself here, as no two references have one base64.
-/
namespace WebcryptoMls
open Records

/-! ## Configuration -/

structure LifetimeConfig where
  maximumTotalLifetime : ℤ
  validateLifetimeOnReceive : Bool

def defaultLifetimeConfig : LifetimeConfig where
  maximumTotalLifetime := 2628000
  validateLifetimeOnReceive := true

structure KeyPackageEqualityConfig where
  compareKeyPackages : KeyPackage → KeyPackage → Bool
  compareKeyPackageToLeafNode : KeyPackage → LeafNode → Bool
  compareLeafNodes : Option (LeafNode → LeafNode → Bool)

def sameMemberLeafNodes (config : KeyPackageEqualityConfig) (a b : LeafNode) : Bool :=
  match config.compareLeafNodes with
  | some compareLeafNodes => compareLeafNodes a b
  | none => constantTimeEqual a.signaturePublicKey b.signaturePublicKey

def defaultKeyPackageEqualityConfig : KeyPackageEqualityConfig where
  compareKeyPackages a b :=
    constantTimeEqual a.leafNode.leaf.signaturePublicKey b.leafNode.leaf.signaturePublicKey
  compareKeyPackageToLeafNode a b :=
    constantTimeEqual a.leafNode.leaf.signaturePublicKey b.signaturePublicKey
  compareLeafNodes := some fun a b => constantTimeEqual a.signaturePublicKey b.signaturePublicKey

/-- The credential, the signature key and the credential it replaces. -/
structure AuthenticationService where
  validateCredential : Credential → Bytes → Option Credential → Except MlsError Bool

def unsafeAcceptAllAuthenticationService : AuthenticationService where
  validateCredential _ _ _ := pure true

inductive PaddingConfig where
  | padUntilLength (padUntilLength : ℕ)
  | alwaysPad (paddingLength : ℕ)

structure ClientConfig where
  keyRetentionConfig : KeyRetentionConfig
  lifetimeConfig : LifetimeConfig
  keyPackageEqualityConfig : KeyPackageEqualityConfig
  paddingConfig : PaddingConfig
  authService : AuthenticationService
  supportedCustomProposalTypes : List ℤ
  maxPendingProposals : ℤ

def defaultMaxPendingProposals : ℤ := 256

/-! ## State -/

structure KeySchedule where
  senderDataSecret : Bytes
  exporterSecret : Bytes
  externalSecret : Bytes
  confirmationKey : Bytes
  membershipKey : Bytes
  resumptionPsk : Bytes
  epochAuthenticator : Bytes
  initSecret : Bytes
  applicationExportSecret : Bytes
  deriving DecidableEq

structure PrivateKeyPath where
  leafIndex : ℕ
  privateKeys : Record ℤ Bytes
  deriving DecidableEq

structure ProposalWithSender where
  proposal : Proposal
  senderLeafIndex : Option ℕ
  senderType : SenderTypeName
  deriving DecidableEq

abbrev UnappliedProposals := Record Bytes ProposalWithSender

structure PendingUpdateKey (s : Signature) where
  hpkePrivateKey : Bytes
  signaturePrivateKey : Option s.SignatureSecretKey

abbrev PendingUpdateKeys (s : Signature) := Record Bytes (PendingUpdateKey s)

inductive GroupActiveState where
  | active
  | suspendedPendingReinit (reinit : Reinit)
  | removedFromGroup
  deriving DecidableEq

/-- What it takes to receive application messages of an earlier epoch. -/
structure EpochReceiverData where
  resumptionPsk : Bytes
  secretTree : SecretTree
  ratchetTree : RatchetTree
  senderDataSecret : Bytes
  groupContext : GroupContext
  deriving DecidableEq

structure ClientState (s : Signature) where
  groupContext : GroupContext
  keySchedule : KeySchedule
  secretTree : SecretTree
  ratchetTree : RatchetTree
  privatePath : PrivateKeyPath
  signaturePrivateKey : s.SignatureSecretKey
  unappliedProposals : UnappliedProposals
  pendingUpdateKeys : Option (PendingUpdateKeys s)
  confirmationTag : Bytes
  historicalReceiverData : Record ℤ EpochReceiverData
  groupActiveState : GroupActiveState
  clientConfig : ClientConfig

def removeOldHistoricalReceiverData (historicalReceiverData : Record ℤ EpochReceiverData)
    (max : ℤ) : Record ℤ EpochReceiverData :=
  if max ≤ 0 then .empty else historicalReceiverData.latest max.toNat

variable {s : Signature}

/-- The retained epochs once the state's epoch is superseded. -/
def addHistoricalReceiverData (state : ClientState s) : Record ℤ EpochReceiverData :=
  let max := state.clientConfig.keyRetentionConfig.retainKeysForEpochs
  if max ≤ 0 then .empty
  else
    let withNew := state.historicalReceiverData.set state.groupContext.epoch {
      secretTree := stripHandshakeRatchets state.secretTree
      ratchetTree := state.ratchetTree
      senderDataSecret := state.keySchedule.senderDataSecret
      groupContext := state.groupContext
      resumptionPsk := state.keySchedule.resumptionPsk }
    if withNew.size ≥ max then removeOldHistoricalReceiverData withNew max else withNew

/-- What is retained was retained before, or is the superseded epoch. -/
theorem get_addHistoricalReceiverData {state : ClientState s} {epoch : ℤ} {data : EpochReceiverData}
    (h : (addHistoricalReceiverData state).get epoch = some data) :
    if epoch = state.groupContext.epoch then
      data.secretTree = stripHandshakeRatchets state.secretTree
    else state.historicalReceiverData.get epoch = some data := by
  simp only [addHistoricalReceiverData] at h
  have hset : ((state.historicalReceiverData.set state.groupContext.epoch {
      secretTree := stripHandshakeRatchets state.secretTree
      ratchetTree := state.ratchetTree
      senderDataSecret := state.keySchedule.senderDataSecret
      groupContext := state.groupContext
      resumptionPsk := state.keySchedule.resumptionPsk }).get epoch) = some data := by
    unfold removeOldHistoricalReceiverData at h
    split_ifs at h
    · cases h
    · exact Record.get_of_get_latest h
    · exact h
  rw [Record.get_set] at hset
  split_ifs at hset ⊢ with hepoch
  · rw [← Option.some.inj hset]
  · exact hset

end WebcryptoMls
