import WebcryptoMls.ClientState

/-!
# Key schedule

The secrets of an epoch come from the init secret of the one before, the commit
secret, the pre-shared keys and the group context; the group context takes in the
commit through the transcript hash. A secret that is wiped after use is not used
again, so the wiping does not show here.
-/
namespace WebcryptoMls
open PrefixCode

/-! ## Secrets -/

def extractEpochSecret (context : GroupContext) (joinerSecret : Bytes) (kdf : Kdf)
    (pskSecret : Bytes) : Except MlsError Bytes := do
  let extracted ← kdf.extract joinerSecret pskSecret
  let encoded ← encodeGroupContext context
  expandWithLabel extracted "epoch" encoded kdf.size kdf

def extractJoinerSecret (context : GroupContext) (previousInitSecret commitSecret : Bytes)
    (kdf : Kdf) : Except MlsError Bytes := do
  let extracted ← kdf.extract previousInitSecret commitSecret
  let encoded ← encodeGroupContext context
  expandWithLabel extracted "joiner" encoded kdf.size kdf

def extractWelcomeSecret (joinerSecret pskSecret : Bytes) (kdf : Kdf) : Except MlsError Bytes := do
  let extracted ← kdf.extract joinerSecret pskSecret
  deriveSecret extracted "welcome" kdf

/-- The encryption secret is not kept with the schedule. -/
structure DerivedKeySchedule where
  keySchedule : KeySchedule
  encryptionSecret : Bytes

structure EpochSecrets extends DerivedKeySchedule where
  joinerSecret : Bytes
  welcomeSecret : Bytes

def deriveEpochKeys (epochSecret : Bytes) (kdf : Kdf) : Except MlsError DerivedKeySchedule := do
  let newInitSecret ← deriveSecret epochSecret "init" kdf
  let senderDataSecret ← deriveSecret epochSecret "sender data" kdf
  let encryptionSecret ← deriveSecret epochSecret "encryption" kdf
  let exporterSecret ← deriveSecret epochSecret "exporter" kdf
  let externalSecret ← deriveSecret epochSecret "external" kdf
  let confirmationKey ← deriveSecret epochSecret "confirm" kdf
  let membershipKey ← deriveSecret epochSecret "membership" kdf
  let resumptionPsk ← deriveSecret epochSecret "resumption" kdf
  let epochAuthenticator ← deriveSecret epochSecret "authentication" kdf
  let applicationExportSecret ← deriveSecret epochSecret "application_export" kdf
  pure {
    keySchedule := {
      initSecret := newInitSecret
      senderDataSecret := senderDataSecret
      exporterSecret := exporterSecret
      externalSecret := externalSecret
      confirmationKey := confirmationKey
      membershipKey := membershipKey
      resumptionPsk := resumptionPsk
      epochAuthenticator := epochAuthenticator
      applicationExportSecret := applicationExportSecret }
    encryptionSecret := encryptionSecret }

def deriveKeySchedule (joinerSecret pskSecret : Bytes) (groupContext : GroupContext) (kdf : Kdf) :
    Except MlsError DerivedKeySchedule := do
  let epochSecret ← extractEpochSecret groupContext joinerSecret kdf pskSecret
  deriveEpochKeys epochSecret kdf

def initializeEpoch (initSecret commitSecret : Bytes) (groupContext : GroupContext)
    (pskSecret : Bytes) (kdf : Kdf) : Except MlsError EpochSecrets := do
  let joinerSecret ← extractJoinerSecret groupContext initSecret commitSecret kdf
  let welcomeSecret ← extractWelcomeSecret joinerSecret pskSecret kdf
  let derived ← deriveKeySchedule joinerSecret pskSecret groupContext kdf
  pure { derived with joinerSecret := joinerSecret, welcomeSecret := welcomeSecret }

def createConfirmationTag (confirmationKey confirmedTranscriptHash : Bytes) (h : Hash) : Bytes :=
  h.mac confirmationKey confirmedTranscriptHash

def verifyConfirmationTag (confirmationKey tag confirmedTranscriptHash : Bytes) (h : Hash) : Bool :=
  h.verifyMac confirmationKey tag confirmedTranscriptHash

/-! ## Pre-shared keys -/

structure PskIndex where
  findPsk : PreSharedKeyID → Option Bytes

def emptyPskIndex : PskIndex where
  findPsk _ := none

structure PSKLabel where
  id : PreSharedKeyID
  index : ℕ
  count : ℕ

def encodePskLabel : Encoder PSKLabel := contramapEncoders [
  contramapEncoder encodePskId PSKLabel.id,
  contramapEncoder (fun n : ℕ => encodeUint16 n) PSKLabel.index,
  contramapEncoder (fun n : ℕ => encodeUint16 n) PSKLabel.count]

def UINT16_MAX : ℕ := 0xffff

def updatePskSecret (secret : Bytes) (pskId : PreSharedKeyID) (psk : Bytes) (index count : ℕ)
    (impl : CiphersuiteImpl) : Except MlsError Bytes :=
  if index > UINT16_MAX ∨ count > UINT16_MAX then
    throw (validationError "PreSharedKeyID index/count exceeds uint16 range")
  else do
    let zeroes := List.replicate impl.kdf.size 0
    let extracted ← impl.kdf.extract zeroes psk
    let label ← encodePskLabel { id := pskId, index := index, count := count }
    let derived ← expandWithLabel extracted "derived psk" label impl.kdf.size impl.kdf
    impl.kdf.extract derived secret

/-- The round of `accumulatePskSecret` for one key. -/
def accumulatePsk (pskSearch : PskIndex) (cs : CiphersuiteImpl) (count : ℕ)
    (acc : Bytes × List PreSharedKeyID) (cur : PreSharedKeyID × ℕ) :
    Except MlsError (Bytes × List PreSharedKeyID) :=
  if cur.1.pskNonce.length ≠ cs.kdf.size then
    throw (validationError "PreSharedKeyID pskNonce length does not match KDF.Nh")
  else match pskSearch.findPsk cur.1 with
    | none => throw (validationError "Could not find pskId referenced in proposal")
    | some psk => do
      let pskSecret ← updatePskSecret acc.1 cur.1 psk cur.2 count cs
      pure (pskSecret, acc.2 ++ [cur.1])

def accumulatePskSecret (groupedPsk : List PreSharedKeyID) (pskSearch : PskIndex)
    (cs : CiphersuiteImpl) (zeroes : Bytes) : Except MlsError (Bytes × List PreSharedKeyID) :=
  groupedPsk.zipIdx.foldlM (accumulatePsk pskSearch cs groupedPsk.length) (zeroes, [])

/-- An external key is looked up among those the application has, a resumption key in
the state, its own epoch's or a retained one's. -/
def makePskIndex {s : Signature} (state : Option (ClientState s))
    (externalPsks : Bytes → Option Bytes) : PskIndex where
  findPsk preSharedKeyId := match preSharedKeyId.info with
    | .external pskId => externalPsks pskId
    | .resumption info => state.bind fun state =>
      if constantTimeEqual info.pskGroupId state.groupContext.groupId then
        if info.pskEpoch = state.groupContext.epoch then some state.keySchedule.resumptionPsk
        else (state.historicalReceiverData.get info.pskEpoch).map EpochReceiverData.resumptionPsk
      else none

/-! ## Transcript -/

structure ConfirmedTranscriptHashInput where
  wireformat : WireformatName
  content : FramedContent
  signature : Bytes

def encodeConfirmedTranscriptHashInput : Encoder ConfirmedTranscriptHashInput := contramapEncoders [
  contramapEncoder encodeWireformat ConfirmedTranscriptHashInput.wireformat,
  contramapEncoder encodeFramedContent ConfirmedTranscriptHashInput.content,
  contramapEncoder encodeVarLenData ConfirmedTranscriptHashInput.signature]

def createConfirmedHash (interimTranscriptHash : Bytes) (input : ConfirmedTranscriptHashInput)
    (hash : Hash) : Except MlsError Bytes := do
  let encoded ← encodeConfirmedTranscriptHashInput input
  pure (hash.digest (interimTranscriptHash ++ encoded))

def createInterimHash (confirmedHash confirmationTag : Bytes) (hash : Hash) :
    Except MlsError Bytes := do
  let encoded ← encodeVarLenData confirmationTag
  pure (hash.digest (confirmedHash ++ encoded))

/-- Nothing precedes the first epoch's commit. -/
def interimTranscriptHash (groupContext : GroupContext) (confirmationTag : Bytes) (h : Hash) :
    Except MlsError Bytes :=
  if groupContext.epoch = 0 then pure []
  else createInterimHash groupContext.confirmedTranscriptHash confirmationTag h

def nextEpochContext (groupContext : GroupContext) (wireformat : WireformatName)
    (content : FramedContent) (signature updatedTreeHash confirmationTag : Bytes) (h : Hash) :
    Except MlsError GroupContext := do
  let interim ← interimTranscriptHash groupContext confirmationTag h
  let newConfirmedHash ← createConfirmedHash interim
    { wireformat := wireformat, content := content, signature := signature } h
  pure { groupContext with
    epoch := groupContext.epoch + 1
    treeHash := updatedTreeHash
    confirmedTranscriptHash := newConfirmedHash }

/-- A commit moves the context to the next epoch and keeps what names the group. -/
theorem nextEpochContext_eq_ok {groupContext next : GroupContext} {wireformat : WireformatName}
    {content : FramedContent} {signature updatedTreeHash confirmationTag : Bytes} {h : Hash}
    (hnext : nextEpochContext groupContext wireformat content signature updatedTreeHash
      confirmationTag h = .ok next) :
    ∃ newConfirmedHash, next = { groupContext with
      epoch := groupContext.epoch + 1
      treeHash := updatedTreeHash
      confirmedTranscriptHash := newConfirmedHash } := by
  obtain ⟨interim, -, hnext⟩ := bind_eq_ok.mp hnext
  obtain ⟨newConfirmedHash, -, hnext⟩ := bind_eq_ok.mp hnext
  exact ⟨newConfirmedHash, (Except.ok.inj hnext).symm⟩

end WebcryptoMls
