import WebcryptoMls.Proposals

/-!
# Messages

The five wire formats of an `MLSMessage`, their encoders and decoders. Over the
bytes of one message the decoder is canonical, and it finds every well-formed
message in what the encoder writes.
-/
namespace WebcryptoMls
open PrefixCode

inductive ContentTypeName where
  | application
  | proposal
  | commit
  deriving Repr, DecidableEq

def contentTypes : ContentTypeName → ℤ
  | .application => 1
  | .proposal => 2
  | .commit => 3

def encodeContentType : Encoder ContentTypeName := contramapEncoder encodeUint8 contentTypes

def decodeContentType : Decoder ContentTypeName :=
  mapDecoderOption decodeUint8 (enumNumberToKey [.application, .proposal, .commit] contentTypes)

/-! ## Senders -/

inductive SenderTypeName where
  | member
  | external
  | new_member_proposal
  | new_member_commit
  deriving Repr, DecidableEq

def senderTypes : SenderTypeName → ℤ
  | .member => 1
  | .external => 2
  | .new_member_proposal => 3
  | .new_member_commit => 4

def encodeSenderType : Encoder SenderTypeName := contramapEncoder encodeUint8 senderTypes

def decodeSenderType : Decoder SenderTypeName :=
  mapDecoderOption decodeUint8
    (enumNumberToKey [.member, .external, .new_member_proposal, .new_member_commit] senderTypes)

inductive Sender where
  | member (leafIndex : ℕ)
  | external (senderIndex : ℕ)
  | new_member_proposal
  | new_member_commit
  deriving Repr, DecidableEq

def Sender.senderType : Sender → SenderTypeName
  | .member _ => .member
  | .external _ => .external
  | .new_member_proposal => .new_member_proposal
  | .new_member_commit => .new_member_commit

/-- A sender's type and the index that goes with it. -/
def encodeSenderIndex (senderType : SenderTypeName) : Encoder ℕ := contramapEncoders [
  contramapEncoder encodeSenderType fun _ => senderType,
  fun n : ℕ => encodeUint32 n]

def encodeSender : Encoder Sender
  | .member leafIndex => encodeSenderIndex .member leafIndex
  | .external senderIndex => encodeSenderIndex .external senderIndex
  | .new_member_proposal => encodeSenderType .new_member_proposal
  | .new_member_commit => encodeSenderType .new_member_commit

def decodeSender : Decoder Sender :=
  flatMapDecoder decodeSenderType fun senderType =>
    match senderType with
    | .member => mapDecoder (mapDecoder decodeUint32 Int.toNat) .member
    | .external => mapDecoder (mapDecoder decodeUint32 Int.toNat) .external
    | .new_member_proposal => succeedDecoder .new_member_proposal
    | .new_member_commit => succeedDecoder .new_member_commit

/-! ## Framed content -/

inductive FramedContentInfo where
  | application (applicationData : Bytes)
  | proposal (proposal : Proposal)
  | commit (commit : Commit)
  deriving Repr, DecidableEq

def FramedContentInfo.contentType : FramedContentInfo → ContentTypeName
  | .application _ => .application
  | .proposal _ => .proposal
  | .commit _ => .commit

/-- A content's type, then the content. -/
def encodeContentOf {α : Type} (contentType : ContentTypeName) (enc : Encoder α) : Encoder α :=
  contramapEncoders [
    contramapEncoder encodeContentType fun _ => contentType,
    enc]

def encodeFramedContentInfo : Encoder FramedContentInfo
  | .application applicationData => encodeContentOf .application encodeVarLenData applicationData
  | .proposal proposal => encodeContentOf .proposal encodeProposal proposal
  | .commit commit => encodeContentOf .commit encodeCommit commit

def decodeFramedContentInfo : Decoder FramedContentInfo :=
  flatMapDecoder decodeContentType fun contentType =>
    match contentType with
    | .application => mapDecoder decodeVarLenData .application
    | .proposal => mapDecoder decodeProposal .proposal
    | .commit => mapDecoder decodeCommit .commit

structure FramedContent where
  groupId : Bytes
  epoch : ℤ
  sender : Sender
  authenticatedData : Bytes
  info : FramedContentInfo
  deriving Repr, DecidableEq

def FramedContent.contentType (content : FramedContent) : ContentTypeName :=
  content.info.contentType

def encodeFramedContent : Encoder FramedContent := contramapEncoders [
  contramapEncoder encodeVarLenData FramedContent.groupId,
  contramapEncoder encodeUint64 FramedContent.epoch,
  contramapEncoder encodeSender FramedContent.sender,
  contramapEncoder encodeVarLenData FramedContent.authenticatedData,
  contramapEncoder encodeFramedContentInfo FramedContent.info]

def decodeFramedContent : Decoder FramedContent := do
  let groupId ← decodeVarLenData
  let epoch ← decodeUint64
  let sender ← decodeSender
  let authenticatedData ← decodeVarLenData
  let info ← decodeFramedContentInfo
  pure {
    groupId := groupId
    epoch := epoch
    sender := sender
    authenticatedData := authenticatedData
    info := info }

/-- Only a commit is confirmed. -/
inductive FramedContentAuthDataContent where
  | application
  | proposal
  | commit (confirmationTag : Bytes)
  deriving Repr, DecidableEq

def FramedContentAuthDataContent.contentType : FramedContentAuthDataContent → ContentTypeName
  | .application => .application
  | .proposal => .proposal
  | .commit _ => .commit

structure FramedContentAuthData where
  signature : Bytes
  content : FramedContentAuthDataContent
  deriving Repr, DecidableEq

def encodeFramedContentAuthDataContent : Encoder FramedContentAuthDataContent
  | .commit confirmationTag => encodeVarLenData confirmationTag
  | .application => pure []
  | .proposal => pure []

def encodeFramedContentAuthData : Encoder FramedContentAuthData := contramapEncoders [
  contramapEncoder encodeVarLenData FramedContentAuthData.signature,
  contramapEncoder encodeFramedContentAuthDataContent FramedContentAuthData.content]

def decodeFramedContentAuthDataCommit : Decoder FramedContentAuthDataContent :=
  mapDecoder decodeVarLenData .commit

def decodeFramedContentAuthData : ContentTypeName → Decoder FramedContentAuthData
  | .commit => do
    let signature ← decodeVarLenData
    let commitData ← decodeFramedContentAuthDataCommit
    pure { signature := signature, content := commitData }
  | .application => mapDecoder decodeVarLenData fun signature =>
    { signature := signature, content := .application }
  | .proposal => mapDecoder decodeVarLenData fun signature =>
    { signature := signature, content := .proposal }

/-! ## Public messages -/

/-- Only a member's message carries a membership tag. -/
inductive PublicMessageInfo where
  | member (membershipTag : Bytes)
  | external
  | new_member_proposal
  | new_member_commit
  deriving Repr, DecidableEq

def PublicMessageInfo.senderType : PublicMessageInfo → SenderTypeName
  | .member _ => .member
  | .external => .external
  | .new_member_proposal => .new_member_proposal
  | .new_member_commit => .new_member_commit

structure PublicMessage where
  content : FramedContent
  auth : FramedContentAuthData
  info : PublicMessageInfo
  deriving Repr, DecidableEq

def encodePublicMessageInfo : Encoder PublicMessageInfo
  | .member membershipTag => encodeVarLenData membershipTag
  | .external => pure []
  | .new_member_proposal => pure []
  | .new_member_commit => pure []

def decodePublicMessageInfo : SenderTypeName → Decoder PublicMessageInfo
  | .member => mapDecoder decodeVarLenData .member
  | .external => succeedDecoder .external
  | .new_member_proposal => succeedDecoder .new_member_proposal
  | .new_member_commit => succeedDecoder .new_member_commit

def encodePublicMessage : Encoder PublicMessage := contramapEncoders [
  contramapEncoder encodeFramedContent PublicMessage.content,
  contramapEncoder encodeFramedContentAuthData PublicMessage.auth,
  contramapEncoder encodePublicMessageInfo PublicMessage.info]

def decodePublicMessage : Decoder PublicMessage :=
  flatMapDecoder decodeFramedContent fun content => do
    let auth ← decodeFramedContentAuthData content.contentType
    let info ← decodePublicMessageInfo content.sender.senderType
    pure { content := content, auth := auth, info := info }

/-! ## Private messages -/

structure PrivateMessage where
  groupId : Bytes
  epoch : ℤ
  contentType : ContentTypeName
  authenticatedData : Bytes
  encryptedSenderData : Bytes
  ciphertext : Bytes
  deriving Repr, DecidableEq

def encodePrivateMessage : Encoder PrivateMessage := contramapEncoders [
  contramapEncoder encodeVarLenData PrivateMessage.groupId,
  contramapEncoder encodeUint64 PrivateMessage.epoch,
  contramapEncoder encodeContentType PrivateMessage.contentType,
  contramapEncoder encodeVarLenData PrivateMessage.authenticatedData,
  contramapEncoder encodeVarLenData PrivateMessage.encryptedSenderData,
  contramapEncoder encodeVarLenData PrivateMessage.ciphertext]

def decodePrivateMessage : Decoder PrivateMessage := do
  let groupId ← decodeVarLenData
  let epoch ← decodeUint64
  let contentType ← decodeContentType
  let authenticatedData ← decodeVarLenData
  let encryptedSenderData ← decodeVarLenData
  let ciphertext ← decodeVarLenData
  pure {
    groupId := groupId
    epoch := epoch
    contentType := contentType
    authenticatedData := authenticatedData
    encryptedSenderData := encryptedSenderData
    ciphertext := ciphertext }

/-! ## Welcomes and group infos -/

structure EncryptedGroupSecrets where
  newMember : Bytes
  encryptedGroupSecrets : HPKECiphertext
  deriving Repr, DecidableEq

def encodeEncryptedGroupSecrets : Encoder EncryptedGroupSecrets := contramapEncoders [
  contramapEncoder encodeVarLenData EncryptedGroupSecrets.newMember,
  contramapEncoder encodeHpkeCiphertext EncryptedGroupSecrets.encryptedGroupSecrets]

def decodeEncryptedGroupSecrets : Decoder EncryptedGroupSecrets := do
  let newMember ← decodeVarLenData
  let encryptedGroupSecrets ← decodeHpkeCiphertext
  pure { newMember := newMember, encryptedGroupSecrets := encryptedGroupSecrets }

structure Welcome where
  cipherSuite : CiphersuiteName
  secrets : List EncryptedGroupSecrets
  encryptedGroupInfo : Bytes
  deriving Repr, DecidableEq

def encodeWelcome : Encoder Welcome := contramapEncoders [
  contramapEncoder encodeCiphersuite Welcome.cipherSuite,
  contramapEncoder (encodeVarLenType encodeEncryptedGroupSecrets) Welcome.secrets,
  contramapEncoder encodeVarLenData Welcome.encryptedGroupInfo]

def decodeWelcome : Decoder Welcome := do
  let cipherSuite ← decodeCiphersuite
  let secrets ← decodeVarLenType decodeEncryptedGroupSecrets
  let encryptedGroupInfo ← decodeVarLenData
  pure { cipherSuite := cipherSuite, secrets := secrets, encryptedGroupInfo := encryptedGroupInfo }

structure GroupInfoTBS where
  groupContext : GroupContext
  extensions : List Extension
  confirmationTag : Bytes
  signer : ℕ
  deriving Repr, DecidableEq

def encodeGroupInfoTBS : Encoder GroupInfoTBS := contramapEncoders [
  contramapEncoder encodeGroupContext GroupInfoTBS.groupContext,
  contramapEncoder (encodeVarLenType encodeExtension) GroupInfoTBS.extensions,
  contramapEncoder encodeVarLenData GroupInfoTBS.confirmationTag,
  contramapEncoder (fun n : ℕ => encodeUint32 n) GroupInfoTBS.signer]

def decodeGroupInfoTBS : Decoder GroupInfoTBS := do
  let groupContext ← decodeGroupContext
  let extensions ← decodeVarLenType decodeExtension
  let confirmationTag ← decodeVarLenData
  let signer ← mapDecoder decodeUint32 Int.toNat
  pure {
    groupContext := groupContext
    extensions := extensions
    confirmationTag := confirmationTag
    signer := signer }

structure GroupInfo extends GroupInfoTBS where
  signature : Bytes
  deriving Repr, DecidableEq

def encodeGroupInfo : Encoder GroupInfo := contramapEncoders [
  contramapEncoder encodeGroupInfoTBS GroupInfo.toGroupInfoTBS,
  contramapEncoder encodeVarLenData GroupInfo.signature]

def decodeGroupInfo : Decoder GroupInfo := do
  let tbs ← decodeGroupInfoTBS
  let signature ← decodeVarLenData
  pure { tbs with signature := signature }

/-! ## Wire formats -/

inductive WireformatName where
  | mls_public_message
  | mls_private_message
  | mls_welcome
  | mls_group_info
  | mls_key_package
  deriving Repr, DecidableEq

def wireformats : WireformatName → ℤ
  | .mls_public_message => 1
  | .mls_private_message => 2
  | .mls_welcome => 3
  | .mls_group_info => 4
  | .mls_key_package => 5

def encodeWireformat : Encoder WireformatName := contramapEncoder encodeUint16 wireformats

def decodeWireformat : Decoder WireformatName :=
  mapDecoderOption decodeUint16 (enumNumberToKey [.mls_public_message, .mls_private_message,
    .mls_welcome, .mls_group_info, .mls_key_package] wireformats)

inductive MlsMessageContent where
  | mls_public_message (publicMessage : PublicMessage)
  | mls_private_message (privateMessage : PrivateMessage)
  | mls_welcome (welcome : Welcome)
  | mls_group_info (groupInfo : GroupInfo)
  | mls_key_package (keyPackage : KeyPackage)
  deriving Repr, DecidableEq

/-- A message's wire format, then the message. -/
def encodeMessageOf {α : Type} (wireformat : WireformatName) (enc : Encoder α) : Encoder α :=
  contramapEncoders [
    contramapEncoder encodeWireformat fun _ => wireformat,
    enc]

def encodeMlsPublicMessage : Encoder PublicMessage :=
  encodeMessageOf .mls_public_message encodePublicMessage

def encodeMlsWelcome : Encoder Welcome := encodeMessageOf .mls_welcome encodeWelcome

def encodeMlsPrivateMessage : Encoder PrivateMessage :=
  encodeMessageOf .mls_private_message encodePrivateMessage

def encodeMlsGroupInfo : Encoder GroupInfo := encodeMessageOf .mls_group_info encodeGroupInfo

def encodeMlsKeyPackage : Encoder KeyPackage := encodeMessageOf .mls_key_package encodeKeyPackage

def encodeMlsMessageContent : Encoder MlsMessageContent
  | .mls_public_message publicMessage => encodeMlsPublicMessage publicMessage
  | .mls_welcome welcome => encodeMlsWelcome welcome
  | .mls_private_message privateMessage => encodeMlsPrivateMessage privateMessage
  | .mls_group_info groupInfo => encodeMlsGroupInfo groupInfo
  | .mls_key_package keyPackage => encodeMlsKeyPackage keyPackage

def decodeMlsMessageContent : Decoder MlsMessageContent :=
  flatMapDecoder decodeWireformat fun wireformat =>
    match wireformat with
    | .mls_public_message => mapDecoder decodePublicMessage .mls_public_message
    | .mls_welcome => mapDecoder decodeWelcome .mls_welcome
    | .mls_private_message => mapDecoder decodePrivateMessage .mls_private_message
    | .mls_group_info => mapDecoder decodeGroupInfo .mls_group_info
    | .mls_key_package => mapDecoder decodeKeyPackage .mls_key_package

structure MLSMessage where
  version : ProtocolVersionName
  content : MlsMessageContent
  deriving Repr, DecidableEq

def encodeMlsMessage : Encoder MLSMessage := contramapEncoders [
  contramapEncoder encodeProtocolVersion MLSMessage.version,
  contramapEncoder encodeMlsMessageContent MLSMessage.content]

def decodeMlsMessageLoose : Decoder MLSMessage := do
  let version ← decodeProtocolVersion
  let content ← decodeMlsMessageContent
  pure { version := version, content := content }

def MAX_MLS_MESSAGE_SIZE : ℕ := 64 * 1024 * 1024

/-- The whole input is one message: a peer chooses its size, which is bounded
before anything is read, and no byte may be left over. -/
def decodeMlsMessage : Decoder MLSMessage := fun b offset =>
  if b.length - offset > MAX_MLS_MESSAGE_SIZE then pure none
  else do
    let result ← decodeMlsMessageLoose b offset
    match result with
    | none => pure none
    | some (message, length) =>
      if offset + length ≠ b.length then pure none else pure (some (message, length))

/-! ## Values a decoder can return -/

def FramedContentInfo.WellFormed : FramedContentInfo → Prop
  | .application _ => True
  | .proposal p => p.WellFormed
  | .commit c => c.WellFormed

structure FramedContent.WellFormed (content : FramedContent) : Prop where
  epoch : IsUint64 content.epoch
  info : content.info.WellFormed

/-- The authentication data is of the content's type, and a membership tag is
there for a member alone. -/
structure PublicMessage.WellFormed (message : PublicMessage) : Prop where
  content : message.content.WellFormed
  auth : message.auth.content.contentType = message.content.contentType
  info : message.info.senderType = message.content.sender.senderType

def PrivateMessage.WellFormed (message : PrivateMessage) : Prop := IsUint64 message.epoch

def Welcome.WellFormed (welcome : Welcome) : Prop := welcome.cipherSuite.WellFormed

structure GroupInfo.WellFormed (info : GroupInfo) : Prop where
  groupContext : info.groupContext.WellFormed
  extensions : ∀ e ∈ info.extensions, e.WellFormed

def MlsMessageContent.WellFormed : MlsMessageContent → Prop
  | .mls_public_message publicMessage => publicMessage.WellFormed
  | .mls_private_message privateMessage => privateMessage.WellFormed
  | .mls_welcome welcome => welcome.WellFormed
  | .mls_group_info groupInfo => groupInfo.WellFormed
  | .mls_key_package keyPackage => keyPackage.WellFormed

def MLSMessage.WellFormed (message : MLSMessage) : Prop := message.content.WellFormed

/-! ## Canonical decoders -/

theorem canonical_contentType : Canonical encodeContentType decodeContentType := canonical_enum

theorem canonical_senderType : Canonical encodeSenderType decodeSenderType := canonical_enum

theorem canonical_sender : Canonical encodeSender decodeSender := by
  apply canonical_senderType.tagged
  intro senderType
  cases senderType with
  | member => exact (canonical_uint_toNat 4).map fun _ _ hy _ hx => concat_pair hx hy
  | external => exact (canonical_uint_toNat 4).map fun _ _ hy _ hx => concat_pair hx hy
  | new_member_proposal =>
    apply Parses.pure
    intro x hx
    rwa [List.append_nil]
  | new_member_commit =>
    apply Parses.pure
    intro x hx
    rwa [List.append_nil]

theorem canonical_framedContentInfo : Canonical encodeFramedContentInfo decodeFramedContentInfo := by
  apply canonical_contentType.tagged
  intro contentType
  cases contentType with
  | application => exact canonical_varLenData.map fun _ _ hy _ hx => concat_pair hx hy
  | proposal => exact canonical_proposal.map fun _ _ hy _ hx => concat_pair hx hy
  | commit => exact canonical_commit.map fun _ _ hy _ hx => concat_pair hx hy

theorem canonical_framedContent : Canonical encodeFramedContent decodeFramedContent :=
  .field canonical_varLenData
    (fun _ => .bind fun _ => .bind fun _ => .bind fun _ => .bind fun _ => .pure rfl) fun _ =>
  .field canonical_uint64
    (fun _ => .bind fun _ => .bind fun _ => .bind fun _ => .pure rfl) fun _ =>
  .field canonical_sender (fun _ => .bind fun _ => .bind fun _ => .pure rfl) fun _ =>
  .field canonical_varLenData (fun _ => .bind fun _ => .pure rfl) fun _ =>
  .field canonical_framedContentInfo (fun _ => .pure rfl) fun _ =>
  canonical_nil

/-- The authentication data of a content that is not confirmed is a signature. -/
theorem encodeFramedContentAuthData_signature {auth : FramedContentAuthData} {x : Bytes}
    (hcontent : encodeFramedContentAuthDataContent auth.content = .ok [])
    (hx : encodeVarLenData auth.signature = .ok x) : encodeFramedContentAuthData auth = .ok x := by
  have h : concat [contramapEncoder encodeVarLenData FramedContentAuthData.signature,
      contramapEncoder encodeFramedContentAuthDataContent FramedContentAuthData.content] auth =
        .ok (x ++ ([] ++ [])) :=
    concat_cons_eq_ok.mpr ⟨x, _, hx,
      concat_cons_eq_ok.mpr ⟨[], [], hcontent, concat_nil auth, rfl⟩, rfl⟩
  rwa [List.append_nil, List.append_nil] at h

theorem canonical_framedContentAuthData (contentType : ContentTypeName) :
    Canonical encodeFramedContentAuthData (decodeFramedContentAuthData contentType) := by
  cases contentType with
  | commit =>
    have hcommit : Canonical encodeFramedContentAuthDataContent decodeFramedContentAuthDataCommit :=
      canonical_varLenData.map fun _ _ hx => hx
    exact .field canonical_varLenData (fun _ => .bind fun _ => .pure rfl) fun _ =>
      .field hcommit (fun _ => .pure rfl) fun _ => canonical_nil
  | application =>
    exact canonical_varLenData.map fun _ _ hx => encodeFramedContentAuthData_signature rfl hx
  | proposal =>
    exact canonical_varLenData.map fun _ _ hx => encodeFramedContentAuthData_signature rfl hx

theorem canonical_publicMessageInfo (senderType : SenderTypeName) :
    Canonical encodePublicMessageInfo (decodePublicMessageInfo senderType) := by
  cases senderType with
  | member => exact canonical_varLenData.map fun _ _ hx => hx
  | external => exact Parses.pure rfl
  | new_member_proposal => exact Parses.pure rfl
  | new_member_commit => exact Parses.pure rfl

theorem canonical_publicMessage : Canonical encodePublicMessage decodePublicMessage :=
  .field canonical_framedContent (fun _ => .bind fun _ => .bind fun _ => .pure rfl) fun _ =>
  .field (canonical_framedContentAuthData _) (fun _ => .bind fun _ => .pure rfl) fun _ =>
  .field (canonical_publicMessageInfo _) (fun _ => .pure rfl) fun _ =>
  canonical_nil

theorem canonical_privateMessage : Canonical encodePrivateMessage decodePrivateMessage :=
  .field canonical_varLenData (fun _ =>
    .bind fun _ => .bind fun _ => .bind fun _ => .bind fun _ => .bind fun _ => .pure rfl) fun _ =>
  .field canonical_uint64
    (fun _ => .bind fun _ => .bind fun _ => .bind fun _ => .bind fun _ => .pure rfl) fun _ =>
  .field canonical_contentType
    (fun _ => .bind fun _ => .bind fun _ => .bind fun _ => .pure rfl) fun _ =>
  .field canonical_varLenData (fun _ => .bind fun _ => .bind fun _ => .pure rfl) fun _ =>
  .field canonical_varLenData (fun _ => .bind fun _ => .pure rfl) fun _ =>
  .field canonical_varLenData (fun _ => .pure rfl) fun _ =>
  canonical_nil

theorem canonical_encryptedGroupSecrets :
    Canonical encodeEncryptedGroupSecrets decodeEncryptedGroupSecrets :=
  .field canonical_varLenData (fun _ => .bind fun _ => .pure rfl) fun _ =>
  .field canonical_hpkeCiphertext (fun _ => .pure rfl) fun _ =>
  canonical_nil

theorem canonical_welcome : Canonical encodeWelcome decodeWelcome :=
  .field canonical_ciphersuite (fun _ => .bind fun _ => .bind fun _ => .pure rfl) fun _ =>
  .field (canonical_varLenType canonical_encryptedGroupSecrets)
    (fun _ => .bind fun _ => .pure rfl) fun _ =>
  .field canonical_varLenData (fun _ => .pure rfl) fun _ =>
  canonical_nil

theorem canonical_groupInfoTBS : Canonical encodeGroupInfoTBS decodeGroupInfoTBS :=
  .field canonical_groupContext
    (fun _ => .bind fun _ => .bind fun _ => .bind fun _ => .pure rfl) fun _ =>
  .field canonical_extensions (fun _ => .bind fun _ => .bind fun _ => .pure rfl) fun _ =>
  .field canonical_varLenData (fun _ => .bind fun _ => .pure rfl) fun _ =>
  .field (canonical_uint_toNat 4) (fun _ => .pure rfl) fun _ =>
  canonical_nil

theorem canonical_groupInfo : Canonical encodeGroupInfo decodeGroupInfo :=
  .field canonical_groupInfoTBS (fun _ => .bind fun _ => .pure rfl) fun _ =>
  .field canonical_varLenData (fun _ => .pure rfl) fun _ =>
  canonical_nil

theorem canonical_mlsMessageContent :
    Canonical encodeMlsMessageContent decodeMlsMessageContent := by
  apply Canonical.tagged (canonical_enum (t := wireformats))
  intro wireformat
  cases wireformat with
  | mls_public_message => exact canonical_publicMessage.map fun _ _ hy _ hx => concat_pair hx hy
  | mls_welcome => exact canonical_welcome.map fun _ _ hy _ hx => concat_pair hx hy
  | mls_private_message => exact canonical_privateMessage.map fun _ _ hy _ hx => concat_pair hx hy
  | mls_group_info => exact canonical_groupInfo.map fun _ _ hy _ hx => concat_pair hx hy
  | mls_key_package => exact canonical_keyPackage.map fun _ _ hy _ hx => concat_pair hx hy

theorem canonical_mlsMessage : Canonical encodeMlsMessage decodeMlsMessageLoose :=
  .field canonical_protocolVersion (fun _ => .bind fun _ => .pure rfl) fun _ =>
  .field canonical_mlsMessageContent (fun _ => .pure rfl) fun _ =>
  canonical_nil

/-! ## Recovered values -/

theorem recovers_contentType (contentType : ContentTypeName) :
    Recovers decodeContentType (encodeContentType contentType) contentType :=
  recovers_enum (by cases contentType <;> rfl)

theorem recovers_senderType (senderType : SenderTypeName) :
    Recovers decodeSenderType (encodeSenderType senderType) senderType :=
  recovers_enum (by cases senderType <;> rfl)

/-- A tag with nothing behind it. -/
theorem recovers_tag {α β : Type} {dec : Decoder α} {s : Except MlsError Bytes} {k : α → Decoder β}
    {a : α} {c : β} (hd : Recovers dec s a) (hk : k a = pure c) : Recovers (dec >>= k) s c := by
  refine hd.bind (t := .ok []) ?_ fun z hz => ⟨z, [], hz, rfl, (List.append_nil z).symm⟩
  rw [hk]
  exact Recovers.pure rfl

theorem recovers_sender (sender : Sender) :
    Recovers decodeSender (encodeSender sender) sender := by
  cases sender with
  | member leafIndex =>
    exact (recovers_senderType .member).bind (recovers_uint_toNat 4 leafIndex).map
      fun _ hz => concat_pair_eq_ok hz
  | external senderIndex =>
    exact (recovers_senderType .external).bind (recovers_uint_toNat 4 senderIndex).map
      fun _ hz => concat_pair_eq_ok hz
  | new_member_proposal => exact recovers_tag (recovers_senderType .new_member_proposal) rfl
  | new_member_commit => exact recovers_tag (recovers_senderType .new_member_commit) rfl

theorem recovers_framedContentInfo {info : FramedContentInfo} (h : info.WellFormed) :
    Recovers decodeFramedContentInfo (encodeFramedContentInfo info) info := by
  cases info with
  | application applicationData =>
    exact (recovers_contentType .application).bind (recovers_varLenData applicationData).map
      fun _ hz => concat_pair_eq_ok hz
  | proposal proposal =>
    exact (recovers_contentType .proposal).bind (recovers_proposal h).map
      fun _ hz => concat_pair_eq_ok hz
  | commit commit =>
    exact (recovers_contentType .commit).bind (recovers_commit h).map
      fun _ hz => concat_pair_eq_ok hz

theorem recovers_framedContent {content : FramedContent} (h : content.WellFormed) :
    Recovers decodeFramedContent (encodeFramedContent content) content :=
  .field (recovers_varLenData _) <|
  .field (recovers_uint64 h.epoch.1 h.epoch.2) <|
  .field (recovers_sender _) <|
  .field (recovers_varLenData _) <|
  .field (recovers_framedContentInfo h.info) recovers_nil

theorem recovers_framedContentAuthData (auth : FramedContentAuthData) :
    Recovers (decodeFramedContentAuthData auth.content.contentType) (encodeFramedContentAuthData auth)
      auth := by
  obtain ⟨signature, content⟩ := auth
  have hsignature : ∀ content : FramedContentAuthDataContent,
      encodeFramedContentAuthDataContent content = .ok [] → ∀ x,
        encodeFramedContentAuthData ⟨signature, content⟩ = .ok x →
          encodeVarLenData signature = .ok x := by
    intro content hcontent x hx
    obtain ⟨y, z, hy, hz, rfl⟩ := concat_cons_eq_ok.mp hx
    obtain ⟨v, w, hv, hw, rfl⟩ := concat_cons_eq_ok.mp hz
    obtain rfl : [] = v := Except.ok.inj (hcontent.symm.trans hv)
    obtain rfl : [] = w := Except.ok.inj hw
    rwa [List.append_nil, List.append_nil]
  cases content with
  | commit confirmationTag =>
    have hcommit : Recovers decodeFramedContentAuthDataCommit
        (encodeFramedContentAuthDataContent (.commit confirmationTag)) (.commit confirmationTag) :=
      (recovers_varLenData confirmationTag).map
    exact .field (recovers_varLenData _) <| .field hcommit recovers_nil
  | application =>
    intro l x r hx
    exact (recovers_varLenData signature).map l x r (hsignature _ rfl x hx)
  | proposal =>
    intro l x r hx
    exact (recovers_varLenData signature).map l x r (hsignature _ rfl x hx)

theorem recovers_publicMessageInfo (info : PublicMessageInfo) :
    Recovers (decodePublicMessageInfo info.senderType) (encodePublicMessageInfo info) info := by
  cases info with
  | member membershipTag => exact (recovers_varLenData membershipTag).map
  | external => exact Recovers.pure rfl
  | new_member_proposal => exact Recovers.pure rfl
  | new_member_commit => exact Recovers.pure rfl

theorem recovers_publicMessage {message : PublicMessage} (h : message.WellFormed) :
    Recovers decodePublicMessage (encodePublicMessage message) message := by
  have hauth := recovers_framedContentAuthData message.auth
  have hinfo := recovers_publicMessageInfo message.info
  rw [h.auth] at hauth
  rw [h.info] at hinfo
  exact .field (recovers_framedContent h.content) <| .field hauth <| .field hinfo recovers_nil

theorem recovers_privateMessage {message : PrivateMessage} (h : message.WellFormed) :
    Recovers decodePrivateMessage (encodePrivateMessage message) message :=
  .field (recovers_varLenData _) <|
  .field (recovers_uint64 h.1 h.2) <|
  .field (recovers_contentType _) <|
  .field (recovers_varLenData _) <|
  .field (recovers_varLenData _) <|
  .field (recovers_varLenData _) recovers_nil

theorem recovers_hpkeCiphertext (ciphertext : HPKECiphertext) :
    Recovers decodeHpkeCiphertext (encodeHpkeCiphertext ciphertext) ciphertext :=
  .field (recovers_varLenData _) <|
  .field (recovers_varLenData _) recovers_nil

theorem recovers_welcome {welcome : Welcome} (h : welcome.WellFormed) :
    Recovers decodeWelcome (encodeWelcome welcome) welcome :=
  .field (recovers_ciphersuite h) <|
  .field (recovers_varLenType (nonEmpty_cons (nonEmpty_varLenData.comp _)) fun _ _ =>
    .field (recovers_varLenData _) <| .field (recovers_hpkeCiphertext _) recovers_nil) <|
  .field (recovers_varLenData _) recovers_nil

theorem recovers_groupInfo {info : GroupInfo} (h : info.WellFormed) :
    Recovers decodeGroupInfo (encodeGroupInfo info) info :=
  have hsigner := recovers_uint_toNat 4 info.signer
  .field (.field (recovers_groupContext h.groupContext) <|
    .field (recovers_extensions h.extensions) <|
    .field (recovers_varLenData _) <|
    .field (e := fun n : ℕ => encodeUint32 n) hsigner recovers_nil) <|
  .field (recovers_varLenData _) recovers_nil

theorem recovers_mlsMessageContent {content : MlsMessageContent} (h : content.WellFormed) :
    Recovers decodeMlsMessageContent (encodeMlsMessageContent content) content := by
  have hformat : ∀ t, Recovers decodeWireformat (encodeWireformat t) t := fun t =>
    recovers_enum (by cases t <;> rfl)
  cases content with
  | mls_public_message publicMessage =>
    exact (hformat .mls_public_message).bind (recovers_publicMessage h).map
      fun _ hz => concat_pair_eq_ok hz
  | mls_private_message privateMessage =>
    exact (hformat .mls_private_message).bind (recovers_privateMessage h).map
      fun _ hz => concat_pair_eq_ok hz
  | mls_welcome welcome =>
    exact (hformat .mls_welcome).bind (recovers_welcome h).map fun _ hz => concat_pair_eq_ok hz
  | mls_group_info groupInfo =>
    exact (hformat .mls_group_info).bind (recovers_groupInfo h).map fun _ hz => concat_pair_eq_ok hz
  | mls_key_package keyPackage =>
    exact (hformat .mls_key_package).bind (recovers_keyPackage h).map
      fun _ hz => concat_pair_eq_ok hz

theorem recovers_mlsMessage {message : MLSMessage} (h : message.WellFormed) :
    Recovers decodeMlsMessageLoose (encodeMlsMessage message) message :=
  .field (recovers_protocolVersion _) <|
  .field (recovers_mlsMessageContent h) recovers_nil

/-! ## One message -/

theorem decodeMlsMessage_eq_ok {b : Bytes} {offset length : ℕ} {message : MLSMessage} :
    decodeMlsMessage b offset = .ok (some (message, length)) ↔
      b.length - offset ≤ MAX_MLS_MESSAGE_SIZE ∧ offset + length = b.length ∧
        decodeMlsMessageLoose b offset = .ok (some (message, length)) := by
  unfold decodeMlsMessage
  by_cases hsize : b.length - offset > MAX_MLS_MESSAGE_SIZE
  · rw [if_pos hsize]
    constructor
    · intro h
      cases h
    · intro h
      omega
  rw [if_neg hsize]
  cases hd : decodeMlsMessageLoose b offset with
  | error e => simp [bind, Except.bind]
  | ok result =>
    cases result with
    | none => simp [bind, Except.bind, pure, Except.pure]
    | some found =>
      obtain ⟨m, n⟩ := found
      simp only [bind, Except.bind, pure, Except.pure]
      split_ifs with hend
      · simp only [Except.ok.injEq, reduceCtorEq, Option.some.injEq, Prod.mk.injEq, false_iff]
        rintro ⟨-, h, -, rfl⟩
        exact hend h
      · simp only [Except.ok.injEq, Option.some.injEq, Prod.mk.injEq]
        constructor
        · rintro ⟨rfl, rfl⟩
          exact ⟨by omega, not_not.mp hend, rfl, rfl⟩
        · rintro ⟨-, -, h⟩
          exact h

/-- What is accepted as a message is the encoding of the message found. -/
theorem encodeMlsMessage_of_decodeMlsMessage {b : Bytes} {m : MLSMessage} {length : ℕ}
    (h : decodeMlsMessage b 0 = .ok (some (m, length))) : encodeMlsMessage m = .ok b := by
  obtain ⟨-, hlen, hd⟩ := decodeMlsMessage_eq_ok.mp h
  obtain rfl : length = b.length := by omega
  exact canonical_mlsMessage.encodes hd

/-- A member's proposal to remove the second leaf. -/
def removeMessage : MLSMessage where
  version := .mls10
  content := .mls_public_message {
    content := {
      groupId := [103]
      epoch := 5
      sender := .member 2
      authenticatedData := []
      info := .proposal (.remove 1) }
    auth := { signature := [170], content := .proposal }
    info := .member [187] }

def removeBytes : Bytes := [0, 1, 0, 1, 1, 103, 0, 0, 0, 0, 0, 0, 0, 5, 1, 0, 0, 0, 2, 0, 2, 0, 3,
  0, 0, 0, 1, 1, 170, 1, 187]

theorem encodeMlsMessage_removeMessage : encodeMlsMessage removeMessage = .ok removeBytes :=
  encodeMlsMessage_of_decodeMlsMessage (by decide +kernel :
    decodeMlsMessage removeBytes 0 = .ok (some (removeMessage, 31)))

/-- Every well-formed message is found in its encoding, and nothing is left over. -/
theorem decodeMlsMessage_of_encodeMlsMessage {m : MLSMessage} {b : Bytes} (hm : m.WellFormed)
    (he : encodeMlsMessage m = .ok b) (hsize : b.length ≤ MAX_MLS_MESSAGE_SIZE) :
    decodeMlsMessage b 0 = .ok (some (m, b.length)) := by
  have hd := recovers_mlsMessage hm [] b [] he
  rw [List.append_nil] at hd
  exact decodeMlsMessage_eq_ok.mpr ⟨hsize, Nat.zero_add _, hd⟩

theorem decodeMlsMessage_removeMessage :
    decodeMlsMessage removeBytes 0 = .ok (some (removeMessage, 31)) :=
  decodeMlsMessage_of_encodeMlsMessage ⟨⟨⟨by decide, by decide⟩, trivial⟩, rfl, rfl⟩
    (by decide +kernel) (by decide)

end WebcryptoMls
