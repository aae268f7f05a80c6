import WebcryptoMls.KeySchedule
import WebcryptoMls.LeafValidation

/-!
# Message protection

What a member signs, what authenticates it to the group, and how it is encrypted.
A public message carries its content with a membership tag. A private message
carries it under a key of the sender's ratchet, and who sent it, and of which
generation, under a key of the epoch.
-/
namespace WebcryptoMls
open PrefixCode

/-! ## Signed content -/

structure FramedContentTBS where
  protocolVersion : ProtocolVersionName
  wireformat : WireformatName
  content : FramedContent
  senderType : SenderTypeName
  context : GroupContext

def toTbs (content : FramedContent) (wireformat : WireformatName) (context : GroupContext) :
    FramedContentTBS where
  protocolVersion := context.version
  wireformat := wireformat
  content := content
  senderType := content.sender.senderType
  context := context

/-- Only who knows the group context signs it. -/
def encodeSenderInfo : Encoder FramedContentTBS := fun tbs =>
  match tbs.senderType with
  | .member => encodeGroupContext tbs.context
  | .new_member_commit => encodeGroupContext tbs.context
  | .external => pure []
  | .new_member_proposal => pure []

def encodeFramedContentTBS : Encoder FramedContentTBS := contramapEncoders [
  contramapEncoder encodeProtocolVersion FramedContentTBS.protocolVersion,
  contramapEncoder encodeWireformat FramedContentTBS.wireformat,
  contramapEncoder encodeFramedContent FramedContentTBS.content,
  encodeSenderInfo]

def verifyFramedContentSignature (signKey : Bytes) (wireformat : WireformatName)
    (content : FramedContent) (auth : FramedContentAuthData) (context : GroupContext)
    (s : Signature) : Except MlsError Bool := do
  let tbs ← encodeFramedContentTBS (toTbs content wireformat context)
  verifyWithLabel signKey "FramedContentTBS" tbs auth.signature s

def signFramedContentTBS (s : Signature) (coins : Bytes) (signKey : s.SignatureSecretKey)
    (tbs : FramedContentTBS) : Except MlsError Bytes := do
  let encoded ← encodeFramedContentTBS tbs
  signWithLabel s coins signKey "FramedContentTBS" encoded

structure CommitSignature where
  framedContent : FramedContent
  signature : Bytes

/-- The sender type signed is a member's, whoever commits. -/
def createContentCommitSignature (groupContext : GroupContext) (wireformat : WireformatName)
    (c : Commit) (sender : Sender) (authenticatedData : Bytes) (s : Signature) (coins : Bytes)
    (signKey : s.SignatureSecretKey) : Except MlsError CommitSignature := do
  let tbs : FramedContentTBS := {
    protocolVersion := groupContext.version
    wireformat := wireformat
    content := {
      groupId := groupContext.groupId
      epoch := groupContext.epoch
      sender := sender
      authenticatedData := authenticatedData
      info := .commit c }
    senderType := .member
    context := groupContext }
  let signature ← signFramedContentTBS s coins signKey tbs
  pure { framedContent := tbs.content, signature := signature }

/-! ## Authenticated content -/

structure AuthenticatedContent where
  wireformat : WireformatName
  content : FramedContent
  auth : FramedContentAuthData

def encodeAuthenticatedContent : Encoder AuthenticatedContent := contramapEncoders [
  contramapEncoder encodeWireformat AuthenticatedContent.wireformat,
  contramapEncoder encodeFramedContent AuthenticatedContent.content,
  contramapEncoder encodeFramedContentAuthData AuthenticatedContent.auth]

structure AuthenticatedContentTBM where
  contentTbs : FramedContentTBS
  auth : FramedContentAuthData

def encodeAuthenticatedContentTBM : Encoder AuthenticatedContentTBM := contramapEncoders [
  contramapEncoder encodeFramedContentTBS AuthenticatedContentTBM.contentTbs,
  contramapEncoder encodeFramedContentAuthData AuthenticatedContentTBM.auth]

def createMembershipTag (membershipKey : Bytes) (tbm : AuthenticatedContentTBM) (h : Hash) :
    Except MlsError Bytes := do
  let encoded ← encodeAuthenticatedContentTBM tbm
  pure (h.mac membershipKey encoded)

def verifyMembershipTag (membershipKey : Bytes) (tbm : AuthenticatedContentTBM) (tag : Bytes)
    (h : Hash) : Except MlsError Bool := do
  let encoded ← encodeAuthenticatedContentTBM tbm
  pure (h.verifyMac membershipKey tag encoded)

def makeProposalRef (proposal : AuthenticatedContent) (h : Hash) : Except MlsError Bytes := do
  let encoded ← encodeAuthenticatedContent proposal
  refhash "MLS 1.0 Proposal Reference" encoded h

def makeKeyPackageRef (keyPackage : KeyPackage) (h : Hash) : Except MlsError Bytes := do
  let encoded ← encodeKeyPackage keyPackage
  refhash "MLS 1.0 KeyPackage Reference" encoded h

/-! ## The bytes that were sent -/

theorem length_encodeUint16 {n : ℤ} {x : Bytes} (h : encodeUint16 n = .ok x) : x.length = 2 := by
  obtain ⟨-, -, rfl⟩ := encodeUint_eq_ok h
  exact length_bigEndian ..

/-- A message is four bytes of version and wire format, and what is sent. -/
theorem decodeMlsMessage_parts {b : Bytes} {m : MLSMessage} {length : ℕ}
    (h : decodeMlsMessage b 0 = .ok (some (m, length))) :
    ∃ version content : Bytes, b = version ++ content ∧ version.length = 2 ∧
      encodeProtocolVersion m.version = .ok version ∧
      encodeMlsMessageContent m.content = .ok content := by
  obtain ⟨-, hlen, hd⟩ := decodeMlsMessage_eq_ok.mp h
  obtain rfl : length = b.length := by omega
  have henc : encodeMlsMessage m = .ok b := canonical_mlsMessage.encodes hd
  obtain ⟨version, content, hversion, hcontent, rfl⟩ := concat_cons_eq_ok.mp henc
  exact ⟨version, content, rfl, length_encodeUint16 hversion, hversion,
    concat_singleton_eq_ok.mp hcontent⟩

/-- A KeyPackage that is added stands in the content that adds it. -/
theorem encodeKeyPackage_suffix {content : FramedContent} {keyPackage : KeyPackage} {x : Bytes}
    (h : encodeFramedContent content = .ok x) (hadd : content.info = .proposal (.add keyPackage)) :
    ∃ encoded, encodeKeyPackage keyPackage = .ok encoded ∧ encoded <:+ x := by
  obtain ⟨groupId, _, -, hepoch, rfl⟩ := concat_cons_eq_ok.mp h
  obtain ⟨epoch, _, -, hsender, rfl⟩ := concat_cons_eq_ok.mp hepoch
  obtain ⟨sender, _, -, hdata, rfl⟩ := concat_cons_eq_ok.mp hsender
  obtain ⟨authenticatedData, info, -, hinfo, rfl⟩ := concat_cons_eq_ok.mp hdata
  have hinfo : encodeFramedContentInfo content.info = .ok info := concat_singleton_eq_ok.mp hinfo
  rw [hadd] at hinfo
  obtain ⟨contentType, proposal, -, hproposal, rfl⟩ := concat_pair_eq_ok hinfo
  obtain ⟨proposalType, encoded, -, hkeyPackage, rfl⟩ := concat_pair_eq_ok hproposal
  refine ⟨encoded, hkeyPackage, ?_⟩
  iterate 5 refine List.IsSuffix.trans ?_ (List.suffix_append _ _)
  exact List.suffix_append _ _

/-- What of a public message is signed, tagged, referred to and hashed are the bytes it came
in, with the group context, which is not sent. -/
theorem decodeMlsMessage_public_bytes {b : Bytes} {m : MLSMessage} {length : ℕ} {pm : PublicMessage}
    (h : decodeMlsMessage b 0 = .ok (some (m, length))) (hm : m.content = .mls_public_message pm) :
    ∃ version wireformat content signature confirmation info : Bytes,
      b = version ++ (wireformat ++ (content ++ ((signature ++ confirmation) ++ info))) ∧
      (∀ context senderInfo, context.version = m.version →
        encodeSenderInfo (toTbs pm.content .mls_public_message context) = .ok senderInfo →
        encodeFramedContentTBS (toTbs pm.content .mls_public_message context) =
          .ok (version ++ (wireformat ++ (content ++ senderInfo))) ∧
        encodeAuthenticatedContentTBM {
            contentTbs := toTbs pm.content .mls_public_message context
            auth := pm.auth } =
          .ok ((version ++ (wireformat ++ (content ++ senderInfo))) ++
            (signature ++ confirmation))) ∧
      encodeAuthenticatedContent {
          wireformat := .mls_public_message
          content := pm.content
          auth := pm.auth } = .ok (wireformat ++ (content ++ (signature ++ confirmation))) ∧
      encodeConfirmedTranscriptHashInput {
          wireformat := .mls_public_message
          content := pm.content
          signature := pm.auth.signature } = .ok (wireformat ++ (content ++ signature)) ∧
      ∀ keyPackage, pm.content.info = .proposal (.add keyPackage) →
        ∃ encoded, encodeKeyPackage keyPackage = .ok encoded ∧ encoded <:+ content := by
  obtain ⟨version, body, rfl, -, hversion, hbody⟩ := decodeMlsMessage_parts h
  rw [hm] at hbody
  obtain ⟨wireformat, sent, hwireformat, hsent, rfl⟩ := concat_pair_eq_ok hbody
  obtain ⟨content, rest, hcontent, hrest, rfl⟩ := concat_cons_eq_ok.mp hsent
  obtain ⟨auth, info, hauth, -, rfl⟩ := concat_cons_eq_ok.mp hrest
  obtain ⟨signature, confirmation, hsignature, -, rfl⟩ := concat_cons_eq_ok.mp hauth
  refine ⟨version, wireformat, content, signature, confirmation, info, rfl,
    fun context senderInfo hcontext hinfo => ?_, ?_, ?_,
    fun keyPackage hadd => encodeKeyPackage_suffix hcontent hadd⟩
  · have htbs : encodeFramedContentTBS (toTbs pm.content .mls_public_message context) =
        .ok (version ++ (wireformat ++ (content ++ senderInfo))) :=
      concat_cons_eq_ok.mpr ⟨version, _, (congrArg encodeProtocolVersion hcontext).trans hversion,
        concat_cons_eq_ok.mpr ⟨wireformat, _, hwireformat,
          concat_cons_eq_ok.mpr ⟨content, _, hcontent, concat_singleton_eq_ok.mpr hinfo, rfl⟩,
          rfl⟩, rfl⟩
    exact ⟨htbs, concat_cons_eq_ok.mpr ⟨_, _, htbs, concat_singleton_eq_ok.mpr hauth, rfl⟩⟩
  · exact concat_cons_eq_ok.mpr ⟨wireformat, _, hwireformat,
      concat_cons_eq_ok.mpr ⟨content, _, hcontent, concat_singleton_eq_ok.mpr hauth, rfl⟩, rfl⟩
  · exact concat_cons_eq_ok.mpr ⟨wireformat, _, hwireformat,
      concat_cons_eq_ok.mpr ⟨content, _, hcontent, concat_singleton_eq_ok.mpr hsignature, rfl⟩, rfl⟩

/-- A KeyPackage that is sent on its own is referred to by the bytes it came in. -/
theorem decodeMlsMessage_keyPackage_bytes {b : Bytes} {m : MLSMessage} {length : ℕ}
    {keyPackage : KeyPackage} (h : decodeMlsMessage b 0 = .ok (some (m, length)))
    (hm : m.content = .mls_key_package keyPackage) : encodeKeyPackage keyPackage = .ok (b.drop 4) := by
  obtain ⟨version, body, rfl, hversionLen, -, hbody⟩ := decodeMlsMessage_parts h
  rw [hm] at hbody
  obtain ⟨wireformat, sent, hwireformat, hsent, rfl⟩ := concat_pair_eq_ok hbody
  have hlen := length_encodeUint16 hwireformat
  rw [← List.append_assoc, List.drop_left' (by rw [List.length_append, hversionLen, hlen])]
  exact hsent

/-! ## Public messages -/

def getSignaturePublicKeyFromLeafIndex (ratchetTree : RatchetTree) (leafIndex : ℕ) :
    Except MlsError Bytes :=
  match leafAt ratchetTree leafIndex with
  | some leaf => pure leaf.signaturePublicKey
  | none => throw (validationError "Unable to find leafnode for leafIndex")

def getCredentialFromLeafIndex (ratchetTree : RatchetTree) (leafIndex : ℕ) :
    Except MlsError Credential :=
  match leafAt ratchetTree leafIndex with
  | some leaf => pure leaf.credential
  | none => throw (validationError "Unable to find leafnode for leafIndex")

def senderFromExtension (extensions : List Extension) (senderIndex : ℕ) :
    Except MlsError (Option ExternalSender) :=
  match findExtension extensions .external_senders with
  | none => pure none
  | some externalSendersExtension => do
    let decoded ← decodeExternalSenders externalSendersExtension.extensionData 0
    match decoded with
    | none => throw (codecError "Could not decode external_senders")
    | some (externalSenders, _) => pure externalSenders[senderIndex]?

/-- `String(proposal.proposalType)` -/
def proposalTypeName : Proposal → String
  | .add _ => "add"
  | .update _ => "update"
  | .remove _ => "remove"
  | .psk _ => "psk"
  | .reinit _ => "reinit"
  | .external_init _ => "external_init"
  | .group_context_extensions _ => "group_context_extensions"
  | .custom proposalType _ => s!"{proposalType}"

/-- `externalSenderAllowedProposalTypes.has(proposal.proposalType)` -/
def externalSenderAllowed : Proposal → Bool
  | .add _ => true
  | .remove _ => true
  | .psk _ => true
  | .reinit _ => true
  | .group_context_extensions _ => true
  | _ => false

def findSignaturePublicKey (ratchetTree : RatchetTree) (groupContext : GroupContext)
    (framedContent : FramedContent) : Except MlsError Bytes :=
  match framedContent.sender with
  | .member leafIndex => getSignaturePublicKeyFromLeafIndex ratchetTree leafIndex
  | .external senderIndex => do
    let sender ← senderFromExtension groupContext.extensions senderIndex
    match sender with
    | none => throw (validationError "Received external but no external_sender extension")
    | some sender =>
      match framedContent.info with
      | .proposal proposal =>
        if externalSenderAllowed proposal then pure sender.signaturePublicKey
        else throw (validationError
          s!"External sender is not permitted to send a {proposalTypeName proposal} proposal")
      | _ => throw (validationError "Received external sender but contentType is not proposal")
  | .new_member_proposal =>
    match framedContent.info with
    | .proposal (.add keyPackage) => pure keyPackage.leafNode.leaf.signaturePublicKey
    | .proposal _ =>
      throw (validationError "Received new_member_proposal but proposalType was not add")
    | _ => throw (validationError "Received new_member_proposal but contentType is not proposal")
  | .new_member_commit =>
    match framedContent.info with
    | .commit commit =>
      match commit.path with
      | some path => pure path.leafNode.leaf.signaturePublicKey
      | none => throw (validationError "Commit contains no update path")
    | _ => throw (validationError "Received new_member_commit but contentType is not commit")

def protectPublicMessage (membershipKey : Bytes) (groupContext : GroupContext)
    (content : AuthenticatedContent) (cs : CiphersuiteImpl) : Except MlsError PublicMessage :=
  match content.content.contentType with
  | .application => throw (usageError "Can't make an application message public")
  | _ =>
    match content.content.sender with
    | .member _ => do
      let tag ← createMembershipTag membershipKey
        { contentTbs := toTbs content.content .mls_public_message groupContext
          auth := content.auth } cs.hash
      pure { content := content.content, auth := content.auth, info := .member tag }
    | .external _ => pure { content := content.content, auth := content.auth, info := .external }
    | .new_member_proposal =>
      pure { content := content.content, auth := content.auth, info := .new_member_proposal }
    | .new_member_commit =>
      pure { content := content.content, auth := content.auth, info := .new_member_commit }

/-- A member's message is tagged; no other is. -/
def membershipVerified (membershipKey : Bytes) (groupContext : GroupContext) (msg : PublicMessage)
    (cs : CiphersuiteImpl) : Except MlsError Bool :=
  match msg.info with
  | .member membershipTag => verifyMembershipTag membershipKey
      { contentTbs := toTbs msg.content .mls_public_message groupContext
        auth := msg.auth } membershipTag cs.hash
  | _ => pure true

def unprotectPublicMessage (membershipKey : Bytes) (groupContext : GroupContext)
    (ratchetTree : RatchetTree) (msg : PublicMessage) (cs : CiphersuiteImpl) :
    Except MlsError AuthenticatedContent :=
  match msg.content.contentType with
  | .application =>
    throw (validationError "A PublicMessage cannot carry application content")
  | _ => do
    let isMember ← membershipVerified membershipKey groupContext msg cs
    if !isMember then throw (cryptoVerificationError "Could not verify membership")
    else do
      let signaturePublicKey ← findSignaturePublicKey ratchetTree groupContext msg.content
      let signatureValid ← verifyFramedContentSignature signaturePublicKey .mls_public_message
        msg.content msg.auth groupContext cs.signature
      if !signatureValid then throw (cryptoVerificationError "Signature invalid")
      else pure { wireformat := .mls_public_message, content := msg.content, auth := msg.auth }

/-! ## Private messages -/

structure PrivateContentAAD where
  groupId : Bytes
  epoch : ℤ
  contentType : ContentTypeName
  authenticatedData : Bytes

def encodePrivateContentAAD : Encoder PrivateContentAAD := contramapEncoders [
  contramapEncoder encodeVarLenData PrivateContentAAD.groupId,
  contramapEncoder encodeUint64 PrivateContentAAD.epoch,
  contramapEncoder encodeContentType PrivateContentAAD.contentType,
  contramapEncoder encodeVarLenData PrivateContentAAD.authenticatedData]

structure PrivateMessageContent where
  info : FramedContentInfo
  auth : FramedContentAuthData

/-- The content without its type, which stands in the open. -/
def encodeUntypedContent : Encoder FramedContentInfo
  | .application applicationData => encodeVarLenData applicationData
  | .proposal proposal => encodeProposal proposal
  | .commit commit => encodeCommit commit

def byteLengthToPad (encodedLength : ℕ) : PaddingConfig → ℕ
  | .alwaysPad paddingLength => paddingLength
  | .padUntilLength padUntilLength => padUntilLength - encodedLength

def encodePrivateMessageContent (config : PaddingConfig) : Encoder PrivateMessageContent := fun msg => do
  let encoded ← contramapEncoders [
    contramapEncoder encodeUntypedContent PrivateMessageContent.info,
    contramapEncoder encodeFramedContentAuthData PrivateMessageContent.auth] msg
  pure (encoded ++ List.replicate (byteLengthToPad encoded.length config) 0)

/-- Everything behind what was decoded is zero. -/
def decoderWithPadding {α : Type} (decoder : Decoder α) : Decoder α := fun bytes offset =>
  match decoder bytes offset with
  | .error e => .error e
  | .ok none => .ok none
  | .ok (some (decoded, innerOffset)) =>
    if (bytes.drop (offset + innerOffset)).all (· == 0) then .ok (some (decoded, bytes.length))
    else .ok none

def decodeUntypedContent : ContentTypeName → Decoder FramedContentInfo
  | .application => mapDecoder decodeVarLenData .application
  | .proposal => mapDecoder decodeProposal .proposal
  | .commit => mapDecoder decodeCommit .commit

def decodePrivateMessageContent (contentType : ContentTypeName) : Decoder PrivateMessageContent :=
  decoderWithPadding do
    let info ← decodeUntypedContent contentType
    let auth ← decodeFramedContentAuthData contentType
    pure { info := info, auth := auth }

def encodeSenderData : Encoder SenderData := contramapEncoders [
  contramapEncoder (fun n : ℕ => encodeUint32 n) SenderData.leafIndex,
  contramapEncoder (fun n : ℕ => encodeUint32 n) SenderData.generation,
  fun senderData => pure senderData.reuseGuard]

def decodeReuseGuard : Decoder Bytes := fun b offset =>
  if offset + 4 > b.length then .ok none else .ok (some ((b.drop offset).take 4, 4))

def decodeSenderData : Decoder SenderData := do
  let leafIndex ← mapDecoder decodeUint32 Int.toNat
  let generation ← mapDecoder decodeUint32 Int.toNat
  let reuseGuard ← decodeReuseGuard
  pure { leafIndex := leafIndex, generation := generation, reuseGuard := reuseGuard }

structure SenderDataAAD where
  groupId : Bytes
  epoch : ℤ
  contentType : ContentTypeName

def encodeSenderDataAAD : Encoder SenderDataAAD := contramapEncoders [
  contramapEncoder encodeVarLenData SenderDataAAD.groupId,
  contramapEncoder encodeUint64 SenderDataAAD.epoch,
  contramapEncoder encodeContentType SenderDataAAD.contentType]

def sampleCiphertext (cs : CiphersuiteImpl) (ciphertext : Bytes) : Bytes :=
  ciphertext.take cs.kdf.size

def expandSenderDataKey (cs : CiphersuiteImpl) (senderDataSecret ciphertext : Bytes) :
    Except MlsError Bytes :=
  expandWithLabel senderDataSecret "key" (sampleCiphertext cs ciphertext) cs.hpke.keyLength cs.kdf

def expandSenderDataNonce (cs : CiphersuiteImpl) (senderDataSecret ciphertext : Bytes) :
    Except MlsError Bytes :=
  expandWithLabel senderDataSecret "nonce" (sampleCiphertext cs ciphertext) cs.hpke.nonceLength
    cs.kdf

def decryptSenderData (msg : PrivateMessage) (senderDataSecret : Bytes) (cs : CiphersuiteImpl) :
    Except MlsError (Option SenderData) := do
  let key ← expandSenderDataKey cs senderDataSecret msg.ciphertext
  let nonce ← expandSenderDataNonce cs senderDataSecret msg.ciphertext
  let aad ← encodeSenderDataAAD
    { groupId := msg.groupId, epoch := msg.epoch, contentType := msg.contentType }
  let decrypted ← cs.hpke.decryptAead key nonce (some aad) msg.encryptedSenderData
  let decoded ← decodeSenderData decrypted 0
  pure (decoded.map Prod.fst)

def encryptSenderData (senderDataSecret : Bytes) (senderData : SenderData) (aad : SenderDataAAD)
    (ciphertext : Bytes) (cs : CiphersuiteImpl) : Except MlsError Bytes := do
  let key ← expandSenderDataKey cs senderDataSecret ciphertext
  let nonce ← expandSenderDataNonce cs senderDataSecret ciphertext
  let encodedAad ← encodeSenderDataAAD aad
  let encoded ← encodeSenderData senderData
  cs.hpke.encryptAead key nonce (some encodedAad) encoded

def toAuthenticatedContent (content : PrivateMessageContent) (msg : PrivateMessage)
    (senderLeafIndex : ℕ) : AuthenticatedContent where
  wireformat := .mls_private_message
  content := {
    groupId := msg.groupId
    epoch := msg.epoch
    sender := .member senderLeafIndex
    authenticatedData := msg.authenticatedData
    info := content.info }
  auth := content.auth

structure ProtectResult where
  privateMessage : PrivateMessage
  tree : SecretTree

def protect (senderDataSecret authenticatedData : Bytes) (groupContext : GroupContext)
    (secretTree : SecretTree) (content : PrivateMessageContent) (leafIndex : ℕ)
    (config : PaddingConfig) (reuseGuard : Bytes) (cs : CiphersuiteImpl) :
    Except MlsError ProtectResult := do
  let contentType := content.info.contentType
  let consumed ← consumeRatchet secretTree (leafToNodeIndex leafIndex) contentType reuseGuard cs
  let aad ← encodePrivateContentAAD {
    groupId := groupContext.groupId
    epoch := groupContext.epoch
    contentType := contentType
    authenticatedData := authenticatedData }
  let encoded ← encodePrivateMessageContent config content
  let ciphertext ← cs.hpke.encryptAead consumed.key consumed.nonce (some aad) encoded
  let encryptedSenderData ← encryptSenderData senderDataSecret
    { leafIndex := leafIndex, generation := consumed.generation, reuseGuard := consumed.reuseGuard }
    { groupId := groupContext.groupId, epoch := groupContext.epoch, contentType := contentType }
    ciphertext cs
  pure {
    privateMessage := {
      groupId := groupContext.groupId
      epoch := groupContext.epoch
      contentType := contentType
      authenticatedData := authenticatedData
      encryptedSenderData := encryptedSenderData
      ciphertext := ciphertext }
    tree := consumed.newTree }

def validateSenderData (senderData : SenderData) (tree : RatchetTree) : Option MlsError :=
  match leafAt tree senderData.leafIndex with
  | some _ => none
  | none => some (validationError "SenderData did not point to a non-blank leaf node")

structure UnprotectResult where
  content : AuthenticatedContent
  tree : SecretTree

/-- The part of `unprotectPrivateMessage` behind the sender data. -/
def unprotectContent (senderData : SenderData) (msg : PrivateMessage) (secretTree : SecretTree)
    (ratchetTree : RatchetTree) (groupContext : GroupContext) (config : KeyRetentionConfig)
    (cs : CiphersuiteImpl) : Except MlsError UnprotectResult := do
  throwIfDefined (validateSenderData senderData ratchetTree)
  let ratcheted ← ratchetToGeneration secretTree senderData msg.contentType config cs
  let aad ← encodePrivateContentAAD {
    groupId := msg.groupId
    epoch := msg.epoch
    contentType := msg.contentType
    authenticatedData := msg.authenticatedData }
  let decrypted ← cs.hpke.decryptAead ratcheted.key ratcheted.nonce (some aad) msg.ciphertext
  let pmc ← decodePrivateMessageContent msg.contentType decrypted 0
  match pmc with
  | none => throw (codecError "Could not decode PrivateMessageContent")
  | some (pmc, _) => do
    let content := toAuthenticatedContent pmc msg senderData.leafIndex
    let signaturePublicKey ← getSignaturePublicKeyFromLeafIndex ratchetTree senderData.leafIndex
    let signatureValid ← verifyFramedContentSignature signaturePublicKey .mls_private_message
      content.content content.auth groupContext cs.signature
    if !signatureValid then throw (cryptoVerificationError "Signature invalid")
    else pure { content := content, tree := ratcheted.newTree }

def unprotectPrivateMessage (senderDataSecret : Bytes) (msg : PrivateMessage)
    (secretTree : SecretTree) (ratchetTree : RatchetTree) (groupContext : GroupContext)
    (config : KeyRetentionConfig) (cs : CiphersuiteImpl) : Except MlsError UnprotectResult := do
  let senderData ← decryptSenderData msg senderDataSecret cs
  match senderData with
  | none => throw (codecError "Could not decode senderdata")
  | some senderData =>
    unprotectContent senderData msg secretTree ratchetTree groupContext config cs

end WebcryptoMls
