import WebcryptoMls.Messages

/-!
# Malformed messages

Whatever bytes a peer sends, decoding them ends: nothing is found, a `CodecError` is
thrown, or a message is found that takes all of the bytes. Every decoder on the way
is confined to the bytes it takes.
-/
namespace WebcryptoMls
open PrefixCode

def IsCodecError (e : MlsError) : Prop := e.name = .CodecError

/-! ## The primitives -/

theorem confined_uint (w : ℕ) : Confined IsCodecError (decodeUint w) :=
  (canonical_uint w).confined (recovers_uint w) fun _ h => by
    unfold decodeUint at h
    split_ifs at h <;> cases h

theorem determineLength_fails {b : Bytes} {offset : ℕ} {e : MlsError}
    (h : determineLength b offset = .error e) : IsCodecError e := by
  simp only [determineLength] at h
  split_ifs at h <;> first | (cases h; rfl) | cases h

theorem confined_varLenData : Confined IsCodecError decodeVarLenData :=
  canonical_varLenData.confined recovers_varLenData fun {b offset e} _ h => by
    unfold decodeVarLenData at h
    split_ifs at h
    · cases h
      rfl
    · cases hd : determineLength b offset with
      | error e' =>
        rw [hd] at h
        cases h
        exact determineLength_fails hd
      | ok p =>
        rw [hd, ok_bind] at h
        dsimp only at h
        split_ifs at h
        · cases h
          rfl
        · cases h

variable {α β : Type}

theorem confined_map {dec : Decoder α} (h : Confined IsCodecError dec) (f : α → β) :
    Confined IsCodecError (mapDecoder dec f) :=
  h.bind fun _ => .pure _

theorem confined_mapOption {dec : Decoder α} (h : Confined IsCodecError dec) (f : α → Option β) :
    Confined IsCodecError (mapDecoderOption dec f) :=
  h.filterMap

/-- Every item takes a byte, so the rounds do not run out. -/
theorem decodeVarLenTypeLoop_fails {dec : Decoder α} (h : Confined IsCodecError dec)
    {totalBytes : Bytes} {fuel cursor : ℕ} {e : MlsError} (hle : cursor ≤ totalBytes.length)
    (hfuel : totalBytes.length ≤ cursor + fuel)
    (he : decodeVarLenTypeLoop dec totalBytes fuel cursor = .error e) : IsCodecError e := by
  induction fuel generalizing cursor with
  | zero =>
    rw [decodeVarLenTypeLoop, if_neg (by omega)] at he
    cases he
  | succ fuel ih =>
    rw [decodeVarLenTypeLoop] at he
    split_ifs at he
    · cases hitem : dec totalBytes cursor with
      | error e' =>
        rw [hitem] at he
        cases he
        exact h.fails hle hitem
      | ok o =>
        cases o with
        | none =>
          rw [hitem] at he
          cases he
        | some item =>
          obtain ⟨value, len⟩ := item
          have htakes := h.takes hle hitem
          rw [hitem] at he
          dsimp only at he
          split_ifs at he with hlen
          cases hrest : decodeVarLenTypeLoop dec totalBytes fuel (cursor + len) with
          | error e' =>
            rw [hrest] at he
            cases he
            exact ih htakes (by omega) hrest
          | ok o => cases o <;> (rw [hrest] at he; cases he)
    · cases he

/-- A list is read from its own bytes, cut out first. -/
theorem confined_varLenType {dec : Decoder α} (h : Confined IsCodecError dec) :
    Confined IsCodecError (decodeVarLenType dec) := by
  have heq : ∀ b offset totalBytes totalLength,
      decodeVarLenData b offset = .ok (some (totalBytes, totalLength)) →
        decodeVarLenType dec b offset =
          (decodeVarLenTypeLoop dec totalBytes totalBytes.length 0).map
            (Option.map fun result => (result, totalLength)) := by
    intro b offset totalBytes totalLength hdata
    rw [decodeVarLenType, hdata]
    dsimp only
    cases decodeVarLenTypeLoop dec totalBytes totalBytes.length 0 with
    | error e => rfl
    | ok o => cases o <;> rfl
  have hok : ∀ b offset result len, decodeVarLenType dec b offset = .ok (some (result, len)) →
      ∃ totalBytes, decodeVarLenData b offset = .ok (some (totalBytes, len)) ∧
        decodeVarLenTypeLoop dec totalBytes totalBytes.length 0 = .ok (some result) := by
    intro b offset result len hb
    cases hdata : decodeVarLenData b offset with
    | error e => simp [decodeVarLenType, hdata] at hb
    | ok o =>
      cases o with
      | none => simp [decodeVarLenType, hdata] at hb
      | some p =>
        obtain ⟨totalBytes, totalLength⟩ := p
        rw [heq _ _ _ _ hdata] at hb
        cases hloop : decodeVarLenTypeLoop dec totalBytes totalBytes.length 0 with
        | error e => simp [hloop, Except.map] at hb
        | ok o =>
          cases o with
          | none => simp [hloop, Except.map] at hb
          | some result' =>
            simp only [hloop, Except.map, Option.map_some, Except.ok.injEq, Option.some.injEq,
              Prod.mk.injEq] at hb
            obtain ⟨rfl, rfl⟩ := hb
            exact ⟨totalBytes, rfl, hloop⟩
  refine ⟨fun {b offset e} hle he => ?_, fun hle hb => ?_, fun hle hb l r => ?_⟩
  · cases hdata : decodeVarLenData b offset with
    | error e' =>
      rw [decodeVarLenType, hdata] at he
      cases he
      exact confined_varLenData.fails hle hdata
    | ok o =>
      cases o with
      | none =>
        rw [decodeVarLenType, hdata] at he
        cases he
      | some p =>
        obtain ⟨totalBytes, totalLength⟩ := p
        rw [heq _ _ _ _ hdata] at he
        cases hloop : decodeVarLenTypeLoop dec totalBytes totalBytes.length 0 with
        | error e' =>
          rw [hloop] at he
          cases he
          exact decodeVarLenTypeLoop_fails h (Nat.zero_le _) (by omega) hloop
        | ok o =>
          rw [hloop] at he
          cases he
  · obtain ⟨totalBytes, hdata, -⟩ := hok _ _ _ _ hb
    exact confined_varLenData.takes hle hdata
  · obtain ⟨totalBytes, hdata, hloop⟩ := hok _ _ _ _ hb
    rw [heq _ _ _ _ (confined_varLenData.reads hle hdata l r), hloop]
    rfl

theorem confined_optional {dec : Decoder α} (h : Confined IsCodecError dec) :
    Confined IsCodecError (decodeOptional dec) := by
  refine (confined_uint 1).bind fun presenceOctet => ?_
  split_ifs
  · exact confined_map h some
  · exact .pure _
  · exact .nothing

/-! ## Leaf nodes and group contexts -/

theorem confined_credential : Confined IsCodecError decodeCredential := by
  refine (confined_map (confined_uint 2) _).bind fun credentialType => ?_
  cases credentialType with
  | basic => exact confined_map confined_varLenData _
  | x509 => exact confined_map (confined_varLenType confined_varLenData) _
  | other n => exact .nothing

theorem confined_capabilities : Confined IsCodecError decodeCapabilities :=
  (confined_varLenType (confined_map (confined_uint 2) _)).bind fun _ =>
  (confined_varLenType (confined_map (confined_uint 2) _)).bind fun _ =>
  (confined_varLenType (confined_uint 2)).bind fun _ =>
  (confined_varLenType (confined_uint 2)).bind fun _ =>
  (confined_varLenType (confined_map (confined_uint 2) _)).bind fun _ => .pure _

/-- Both alternatives read the same number. -/
theorem decodeExtensionType_eq : decodeExtensionType = mapDecoder decodeUint16 fun n =>
    ((enumNumberToKey [.application_id, .ratchet_tree, .required_capabilities, .external_pub,
      .external_senders] defaultExtensionTypes n).map ExtensionType.default).getD (.number n) := by
  funext b offset
  simp only [decodeExtensionType, orDecoder, mapDecoder, decodeDefaultExtensionType,
    mapDecoderOption, Decoding.filterMap, bind, Decoding.flatMap]
  cases decodeUint16 b offset with
  | error e => rfl
  | ok o =>
    cases o with
    | none => rfl
    | some p =>
      obtain ⟨n, len⟩ := p
      cases hname : enumNumberToKey [.application_id, .ratchet_tree, .required_capabilities,
        .external_pub, .external_senders] defaultExtensionTypes n <;> simp [hname, pure, Decoding.succeed]

theorem confined_extensionType : Confined IsCodecError decodeExtensionType := by
  rw [decodeExtensionType_eq]
  exact confined_map (confined_uint 2) _

theorem confined_extension : Confined IsCodecError decodeExtension :=
  confined_extensionType.bind fun _ => confined_varLenData.bind fun _ => .pure _

theorem confined_extensions : Confined IsCodecError (decodeVarLenType decodeExtension) :=
  confined_varLenType confined_extension

theorem confined_lifetime : Confined IsCodecError decodeLifetime :=
  (confined_uint 8).bind fun _ => (confined_uint 8).bind fun _ => .pure _

theorem confined_leafNodeInfo : Confined IsCodecError decodeLeafNodeInfo := by
  refine (confined_mapOption (confined_uint 1) _).bind fun leafNodeSource => ?_
  cases leafNodeSource with
  | key_package => exact confined_map confined_lifetime _
  | update => exact .pure _
  | commit => exact confined_map confined_varLenData _

theorem confined_leafNodeData : Confined IsCodecError decodeLeafNodeData :=
  confined_varLenData.bind fun _ => confined_varLenData.bind fun _ =>
  confined_credential.bind fun _ => confined_capabilities.bind fun _ => .pure _

theorem confined_leafNode : Confined IsCodecError decodeLeafNode :=
  confined_leafNodeData.bind fun _ => confined_leafNodeInfo.bind fun _ =>
  confined_extensions.bind fun _ => confined_varLenData.bind fun _ => .pure _

theorem confined_protocolVersion : Confined IsCodecError decodeProtocolVersion :=
  confined_mapOption (confined_uint 2) _

theorem confined_ciphersuite : Confined IsCodecError decodeCiphersuite :=
  confined_map (confined_uint 2) _

theorem confined_groupContext : Confined IsCodecError decodeGroupContext :=
  confined_protocolVersion.bind fun _ => confined_ciphersuite.bind fun _ =>
  confined_varLenData.bind fun _ => (confined_uint 8).bind fun _ =>
  confined_varLenData.bind fun _ => confined_varLenData.bind fun _ =>
  confined_extensions.bind fun _ => .pure _

/-! ## Key packages, proposals and commits -/

theorem confined_keyPackageTBS : Confined IsCodecError decodeKeyPackageTBS :=
  confined_protocolVersion.bind fun _ => confined_ciphersuite.bind fun _ =>
  confined_varLenData.bind fun _ => (confined_mapOption confined_leafNode _).bind fun _ =>
  confined_extensions.bind fun _ => .pure _

theorem confined_keyPackage : Confined IsCodecError decodeKeyPackage :=
  confined_keyPackageTBS.bind fun _ => confined_varLenData.bind fun _ => .pure _

theorem confined_pskInfo : Confined IsCodecError decodePskInfo := by
  refine (confined_mapOption (confined_uint 1) _).bind fun psktype => ?_
  cases psktype with
  | external => exact confined_map confined_varLenData _
  | resumption =>
    refine confined_map ?_ _
    exact (confined_mapOption (confined_uint 1) _).bind fun _ =>
      confined_varLenData.bind fun _ => (confined_uint 8).bind fun _ => .pure _

theorem confined_pskId : Confined IsCodecError decodePskId :=
  confined_pskInfo.bind fun _ => confined_varLenData.bind fun _ => .pure _

theorem confined_reinit : Confined IsCodecError decodeReinit :=
  confined_varLenData.bind fun _ => confined_protocolVersion.bind fun _ =>
  confined_ciphersuite.bind fun _ => confined_extensions.bind fun _ => .pure _

theorem confined_proposal : Confined IsCodecError decodeProposal := by
  refine (confined_uint 2).bind fun n => ?_
  cases decodeDefaultProposalTypeName n with
  | none => exact confined_map confined_varLenData _
  | some name =>
    cases name with
    | add => exact confined_map confined_keyPackage _
    | update => exact confined_map (confined_mapOption confined_leafNode _) _
    | remove => exact confined_map (confined_map (confined_uint 4) _) _
    | psk => exact confined_map confined_pskId _
    | reinit => exact confined_map confined_reinit _
    | external_init => exact confined_map confined_varLenData _
    | group_context_extensions => exact confined_map confined_extensions _

theorem confined_proposalOrRef : Confined IsCodecError decodeProposalOrRef := by
  refine (confined_mapOption (confined_uint 1) _).bind fun proposalOrRefType => ?_
  cases proposalOrRefType with
  | proposal => exact confined_map confined_proposal _
  | reference => exact confined_map confined_varLenData _

theorem confined_hpkeCiphertext : Confined IsCodecError decodeHpkeCiphertext :=
  confined_varLenData.bind fun _ => confined_varLenData.bind fun _ => .pure _

theorem confined_updatePathNode : Confined IsCodecError decodeUpdatePathNode :=
  confined_varLenData.bind fun _ =>
  (confined_varLenType confined_hpkeCiphertext).bind fun _ => .pure _

theorem confined_updatePath : Confined IsCodecError decodeUpdatePath :=
  (confined_mapOption confined_leafNode _).bind fun _ =>
  (confined_varLenType confined_updatePathNode).bind fun _ => .pure _

theorem confined_commit : Confined IsCodecError decodeCommit :=
  (confined_varLenType confined_proposalOrRef).bind fun _ =>
  (confined_optional confined_updatePath).bind fun _ => .pure _

/-! ## Messages -/

theorem confined_sender : Confined IsCodecError decodeSender := by
  refine (confined_mapOption (confined_uint 1) _).bind fun senderType => ?_
  cases senderType with
  | member => exact confined_map (confined_map (confined_uint 4) _) _
  | external => exact confined_map (confined_map (confined_uint 4) _) _
  | new_member_proposal => exact .pure _
  | new_member_commit => exact .pure _

theorem confined_framedContentInfo : Confined IsCodecError decodeFramedContentInfo := by
  refine (confined_mapOption (confined_uint 1) _).bind fun contentType => ?_
  cases contentType with
  | application => exact confined_map confined_varLenData _
  | proposal => exact confined_map confined_proposal _
  | commit => exact confined_map confined_commit _

theorem confined_framedContent : Confined IsCodecError decodeFramedContent :=
  confined_varLenData.bind fun _ => (confined_uint 8).bind fun _ =>
  confined_sender.bind fun _ => confined_varLenData.bind fun _ =>
  confined_framedContentInfo.bind fun _ => .pure _

theorem confined_framedContentAuthData (contentType : ContentTypeName) :
    Confined IsCodecError (decodeFramedContentAuthData contentType) := by
  cases contentType with
  | commit =>
    exact confined_varLenData.bind fun _ =>
      (confined_map confined_varLenData _).bind fun _ => .pure _
  | application => exact confined_map confined_varLenData _
  | proposal => exact confined_map confined_varLenData _

theorem confined_publicMessageInfo (senderType : SenderTypeName) :
    Confined IsCodecError (decodePublicMessageInfo senderType) := by
  cases senderType with
  | member => exact confined_map confined_varLenData _
  | external => exact .pure _
  | new_member_proposal => exact .pure _
  | new_member_commit => exact .pure _

theorem confined_publicMessage : Confined IsCodecError decodePublicMessage :=
  confined_framedContent.bind fun _ => (confined_framedContentAuthData _).bind fun _ =>
  (confined_publicMessageInfo _).bind fun _ => .pure _

theorem confined_privateMessage : Confined IsCodecError decodePrivateMessage :=
  confined_varLenData.bind fun _ => (confined_uint 8).bind fun _ =>
  (confined_mapOption (confined_uint 1) _).bind fun _ => confined_varLenData.bind fun _ =>
  confined_varLenData.bind fun _ => confined_varLenData.bind fun _ => .pure _

theorem confined_encryptedGroupSecrets : Confined IsCodecError decodeEncryptedGroupSecrets :=
  confined_varLenData.bind fun _ => confined_hpkeCiphertext.bind fun _ => .pure _

theorem confined_welcome : Confined IsCodecError decodeWelcome :=
  confined_ciphersuite.bind fun _ =>
  (confined_varLenType confined_encryptedGroupSecrets).bind fun _ =>
  confined_varLenData.bind fun _ => .pure _

theorem confined_groupInfoTBS : Confined IsCodecError decodeGroupInfoTBS :=
  confined_groupContext.bind fun _ => confined_extensions.bind fun _ =>
  confined_varLenData.bind fun _ => (confined_map (confined_uint 4) _).bind fun _ => .pure _

theorem confined_groupInfo : Confined IsCodecError decodeGroupInfo :=
  confined_groupInfoTBS.bind fun _ => confined_varLenData.bind fun _ => .pure _

theorem confined_mlsMessageContent : Confined IsCodecError decodeMlsMessageContent := by
  refine (confined_mapOption (confined_uint 2) _).bind fun wireformat => ?_
  cases wireformat with
  | mls_public_message => exact confined_map confined_publicMessage _
  | mls_welcome => exact confined_map confined_welcome _
  | mls_private_message => exact confined_map confined_privateMessage _
  | mls_group_info => exact confined_map confined_groupInfo _
  | mls_key_package => exact confined_map confined_keyPackage _

theorem confined_mlsMessageLoose : Confined IsCodecError decodeMlsMessageLoose :=
  confined_protocolVersion.bind fun _ => confined_mlsMessageContent.bind fun _ => .pure _

/-- The decoders a message is read with. -/
def messageDecoders : List (Sigma Decoder) := [
  ⟨_, decodeUint8⟩, ⟨_, decodeUint16⟩, ⟨_, decodeUint32⟩, ⟨_, decodeUint64⟩, ⟨_, decodeVarLenData⟩,
  ⟨_, decodeCredentialType⟩, ⟨_, decodeCapabilityProtocolVersion⟩, ⟨_, decodeCiphersuite⟩,
  ⟨_, decodeProtocolVersion⟩, ⟨_, decodeCredential⟩, ⟨_, decodeCapabilities⟩,
  ⟨_, decodeExtensionType⟩, ⟨_, decodeExtension⟩, ⟨_, decodeVarLenType decodeExtension⟩,
  ⟨_, decodeLifetime⟩, ⟨_, decodeLeafNodeSource⟩, ⟨_, decodeLeafNodeInfo⟩, ⟨_, decodeLeafNodeData⟩,
  ⟨_, decodeLeafNode⟩, ⟨_, decodeLeafNodeKeyPackage⟩, ⟨_, decodeLeafNodeCommit⟩,
  ⟨_, decodeLeafNodeUpdate⟩, ⟨_, decodeGroupContext⟩, ⟨_, decodeKeyPackageTBS⟩,
  ⟨_, decodeKeyPackage⟩, ⟨_, decodePskInfo⟩, ⟨_, decodePskId⟩, ⟨_, decodeReinit⟩,
  ⟨_, decodeProposal⟩, ⟨_, decodeProposalOrRef⟩, ⟨_, decodeVarLenType decodeProposalOrRef⟩,
  ⟨_, decodeHpkeCiphertext⟩, ⟨_, decodeUpdatePathNode⟩, ⟨_, decodeUpdatePath⟩,
  ⟨_, decodeOptional decodeUpdatePath⟩, ⟨_, decodeCommit⟩, ⟨_, decodeContentType⟩,
  ⟨_, decodeSender⟩, ⟨_, decodeFramedContentInfo⟩, ⟨_, decodeFramedContent⟩,
  ⟨_, decodeFramedContentAuthData .commit⟩, ⟨_, decodeFramedContentAuthData .application⟩,
  ⟨_, decodeFramedContentAuthData .proposal⟩, ⟨_, decodePublicMessageInfo .member⟩,
  ⟨_, decodePublicMessageInfo .external⟩, ⟨_, decodePublicMessageInfo .new_member_proposal⟩,
  ⟨_, decodePublicMessageInfo .new_member_commit⟩, ⟨_, decodePublicMessage⟩,
  ⟨_, decodePrivateMessage⟩, ⟨_, decodeEncryptedGroupSecrets⟩, ⟨_, decodeWelcome⟩,
  ⟨_, decodeGroupInfoTBS⟩, ⟨_, decodeGroupInfo⟩, ⟨_, decodeWireformat⟩,
  ⟨_, decodeMlsMessageContent⟩, ⟨_, decodeMlsMessageLoose⟩]

theorem confined_messageDecoders : ∀ d ∈ messageDecoders, Confined IsCodecError d.2 := by
  simp only [messageDecoders, List.forall_mem_cons]
  exact ⟨
    confined_uint 1, confined_uint 2, confined_uint 4, confined_uint 8, confined_varLenData,
    confined_map (confined_uint 2) _, confined_map (confined_uint 2) _, confined_ciphersuite,
    confined_protocolVersion, confined_credential, confined_capabilities, confined_extensionType,
    confined_extension, confined_extensions, confined_lifetime,
    confined_mapOption (confined_uint 1) _, confined_leafNodeInfo, confined_leafNodeData,
    confined_leafNode, confined_mapOption confined_leafNode _,
    confined_mapOption confined_leafNode _, confined_mapOption confined_leafNode _,
    confined_groupContext, confined_keyPackageTBS, confined_keyPackage, confined_pskInfo,
    confined_pskId, confined_reinit, confined_proposal, confined_proposalOrRef,
    confined_varLenType confined_proposalOrRef, confined_hpkeCiphertext, confined_updatePathNode,
    confined_updatePath, confined_optional confined_updatePath, confined_commit,
    confined_mapOption (confined_uint 1) _, confined_sender, confined_framedContentInfo,
    confined_framedContent, confined_framedContentAuthData _, confined_framedContentAuthData _,
    confined_framedContentAuthData _, confined_publicMessageInfo _, confined_publicMessageInfo _,
    confined_publicMessageInfo _, confined_publicMessageInfo _, confined_publicMessage,
    confined_privateMessage, confined_encryptedGroupSecrets, confined_welcome,
    confined_groupInfoTBS, confined_groupInfo, confined_mapOption (confined_uint 2) _,
    confined_mlsMessageContent, confined_mlsMessageLoose, by simp⟩

/-- Decoding any bytes finds nothing, throws a `CodecError`, or finds a message that is
all of them, and no decoder on the way leaves the bytes it was given. -/
theorem decodeMlsMessage_confined :
    (∀ (b : Bytes) (offset : ℕ), offset ≤ b.length →
      decodeMlsMessage b offset = .ok none ∨
      (∃ e, decodeMlsMessage b offset = .error e ∧ e.name = .CodecError) ∨
      ∃ message, decodeMlsMessage b offset = .ok (some (message, b.length - offset))) ∧
    (∀ d ∈ messageDecoders, Confined IsCodecError d.2) ∧
    ∀ (α : Type) (dec : Decoder α), Confined IsCodecError dec →
      Confined IsCodecError (decodeVarLenType dec) ∧ Confined IsCodecError (decodeOptional dec) := by
  refine ⟨fun b offset hle => ?_, confined_messageDecoders,
    fun α dec h => ⟨confined_varLenType h, confined_optional h⟩⟩
  unfold decodeMlsMessage
  split_ifs
  · exact .inl rfl
  cases hloose : decodeMlsMessageLoose b offset with
  | error e => exact .inr (.inl ⟨e, rfl, confined_mlsMessageLoose.fails hle hloose⟩)
  | ok result =>
    rw [ok_bind]
    cases result with
    | none => exact .inl rfl
    | some found =>
      obtain ⟨message, length⟩ := found
      dsimp only
      split_ifs with hlength
      · exact .inl rfl
      · rw [show length = b.length - offset by omega]
        exact .inr (.inr ⟨message, rfl⟩)

end WebcryptoMls
