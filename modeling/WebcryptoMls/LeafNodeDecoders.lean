import WebcryptoMls.Decoders
import WebcryptoMls.GroupContext

/-!
# Reading leaf nodes and group contexts

The decoders of the encoders in `LeafNode` and `GroupContext`, and for each type
which of its values a decoder can return: open enumerations hold no number a name
stands for, credentials are `basic` or `x509`, and a `uint64` fits its 64 bits.
-/
namespace WebcryptoMls
open PrefixCode

/-! ## Decoders -/

/-- `openEnumNumberToKey(credentialTypes)` -/
def CredentialTypeName.ofNumber : ℤ → CredentialTypeName :=
  openEnumNumberToKey [.basic, .x509] toNumber .other

/-- `openEnumNumberToKey(openProtocolVersions)` -/
def CapabilityProtocolVersion.ofNumber : ℤ → CapabilityProtocolVersion :=
  openEnumNumberToKey [.mls10] toNumber .other

def ciphersuites : List CiphersuiteName := [
  .MLS_128_DHKEMX25519_AES128GCM_SHA256_Ed25519,
  .MLS_128_DHKEMP256_AES128GCM_SHA256_P256,
  .MLS_128_DHKEMX25519_CHACHA20POLY1305_SHA256_Ed25519,
  .MLS_256_DHKEMX448_AES256GCM_SHA512_Ed448,
  .MLS_256_DHKEMP521_AES256GCM_SHA512_P521,
  .MLS_256_DHKEMX448_CHACHA20POLY1305_SHA512_Ed448,
  .MLS_256_DHKEMP384_AES256GCM_SHA384_P384,
  .MLS_128_MLKEM512_AES128GCM_SHA256_Ed25519,
  .MLS_128_MLKEM512_CHACHA20POLY1305_SHA256_Ed25519,
  .MLS_256_MLKEM768_AES256GCM_SHA384_Ed25519,
  .MLS_256_MLKEM768_CHACHA20POLY1305_SHA384_Ed25519,
  .MLS_256_MLKEM1024_AES256GCM_SHA512_Ed25519,
  .MLS_256_MLKEM1024_CHACHA20POLY1305_SHA512_Ed25519,
  .MLS_256_XWING_AES256GCM_SHA512_Ed25519,
  .MLS_256_XWING_CHACHA20POLY1305_SHA512_Ed25519,
  .MLS_256_MLKEM1024_AES256GCM_SHA512_MLDSA87,
  .MLS_256_MLKEM1024_CHACHA20POLY1305_SHA512_MLDSA87,
  .MLS_256_XWING_AES256GCM_SHA512_MLDSA87,
  .MLS_256_XWING_CHACHA20POLY1305_SHA512_MLDSA87]

/-- `openEnumNumberToKey(ciphersuites)` -/
def CiphersuiteName.ofNumber : ℤ → CiphersuiteName :=
  openEnumNumberToKey ciphersuites toNumber .other

def decodeCredentialType : Decoder CredentialTypeName :=
  mapDecoder decodeUint16 CredentialTypeName.ofNumber

def decodeCapabilityProtocolVersion : Decoder CapabilityProtocolVersion :=
  mapDecoder decodeUint16 CapabilityProtocolVersion.ofNumber

def decodeCiphersuite : Decoder CiphersuiteName :=
  mapDecoder decodeUint16 CiphersuiteName.ofNumber

def decodeProtocolVersion : Decoder ProtocolVersionName :=
  mapDecoderOption decodeUint16 (enumNumberToKey [.mls10] protocolVersions)

def decodeCredentialBasic : Decoder Credential := mapDecoder decodeVarLenData .basic

def decodeCredentialX509 : Decoder Credential :=
  mapDecoder (decodeVarLenType decodeVarLenData) .x509

/-- Unknown types have no decoder, so the decode fails. -/
def decodeCredential : Decoder Credential :=
  flatMapDecoder decodeCredentialType fun credentialType =>
    match credentialType with
    | .basic => decodeCredentialBasic
    | .x509 => decodeCredentialX509
    | .other _ => Decoding.nothing

def decodeCapabilities : Decoder Capabilities := do
  let versions ← decodeVarLenType decodeCapabilityProtocolVersion
  let ciphersuites ← decodeVarLenType decodeCiphersuite
  let extensions ← decodeVarLenType decodeUint16
  let proposals ← decodeVarLenType decodeUint16
  let credentials ← decodeVarLenType decodeCredentialType
  pure {
    versions := versions
    ciphersuites := ciphersuites
    extensions := extensions
    proposals := proposals
    credentials := credentials }

def decodeDefaultExtensionType : Decoder DefaultExtensionTypeName :=
  mapDecoderOption decodeUint16 (enumNumberToKey
    [.application_id, .ratchet_tree, .required_capabilities, .external_pub, .external_senders]
    defaultExtensionTypes)

def decodeExtensionType : Decoder ExtensionType :=
  orDecoder (mapDecoder decodeDefaultExtensionType .default) (mapDecoder decodeUint16 .number)

def decodeExtension : Decoder Extension := do
  let extensionType ← decodeExtensionType
  let extensionData ← decodeVarLenData
  pure { extensionType := extensionType, extensionData := extensionData }

def decodeLifetime : Decoder Lifetime := do
  let notBefore ← decodeUint64
  let notAfter ← decodeUint64
  pure { notBefore := notBefore, notAfter := notAfter }

def decodeLeafNodeSource : Decoder LeafNodeSourceName :=
  mapDecoderOption decodeUint8 (enumNumberToKey [.key_package, .update, .commit] leafNodeSources)

def decodeLeafNodeInfoLifetime : Decoder LeafNodeInfo := mapDecoder decodeLifetime .key_package

def decodeLeafNodeInfoCommit : Decoder LeafNodeInfo := mapDecoder decodeVarLenData .commit

def decodeLeafNodeInfo : Decoder LeafNodeInfo :=
  flatMapDecoder decodeLeafNodeSource fun leafNodeSource =>
    match leafNodeSource with
    | .key_package => decodeLeafNodeInfoLifetime
    | .update => succeedDecoder .update
    | .commit => decodeLeafNodeInfoCommit

/-- The fields `decodeLeafNodeData` reads. -/
structure LeafNodeData where
  hpkePublicKey : Bytes
  signaturePublicKey : Bytes
  credential : Credential
  capabilities : Capabilities

def decodeLeafNodeData : Decoder LeafNodeData := do
  let hpkePublicKey ← decodeVarLenData
  let signaturePublicKey ← decodeVarLenData
  let credential ← decodeCredential
  let capabilities ← decodeCapabilities
  pure {
    hpkePublicKey := hpkePublicKey
    signaturePublicKey := signaturePublicKey
    credential := credential
    capabilities := capabilities }

def decodeLeafNodeExtensions : Decoder (List Extension) := decodeVarLenType decodeExtension

def decodeLeafNode : Decoder LeafNode := do
  let data ← decodeLeafNodeData
  let info ← decodeLeafNodeInfo
  let extensions ← decodeLeafNodeExtensions
  let signature ← decodeVarLenData
  pure {
    hpkePublicKey := data.hpkePublicKey
    signaturePublicKey := data.signaturePublicKey
    credential := data.credential
    capabilities := data.capabilities
    info := info
    extensions := extensions
    signature := signature }

/-- A leaf of a key package, with the lifetime such a leaf carries. -/
structure LeafNodeKeyPackage where
  leaf : LeafNode
  lifetime : Lifetime
  source : leaf.info = .key_package lifetime
  deriving Repr, DecidableEq

/-- A leaf of an Update. -/
structure LeafNodeUpdate where
  leaf : LeafNode
  source : leaf.info = .update
  deriving Repr, DecidableEq

/-- The leaf as a leaf of a key package, where its source says so. -/
def LeafNode.asKeyPackage (leaf : LeafNode) : Option LeafNodeKeyPackage :=
  match h : leaf.info with
  | .key_package lifetime => some { leaf := leaf, lifetime := lifetime, source := h }
  | _ => none

def LeafNode.asUpdate (leaf : LeafNode) : Option LeafNodeUpdate :=
  match h : leaf.info with
  | .update => some { leaf := leaf, source := h }
  | _ => none

def LeafNode.asCommit (leaf : LeafNode) : Option LeafNodeCommit :=
  match h : leaf.info with
  | .commit parentHash => some { leaf := leaf, parentHash := parentHash, source := h }
  | _ => none

def decodeLeafNodeKeyPackage : Decoder LeafNodeKeyPackage :=
  mapDecoderOption decodeLeafNode LeafNode.asKeyPackage

def decodeLeafNodeCommit : Decoder LeafNodeCommit := mapDecoderOption decodeLeafNode LeafNode.asCommit

def decodeLeafNodeUpdate : Decoder LeafNodeUpdate := mapDecoderOption decodeLeafNode LeafNode.asUpdate

def decodeGroupContext : Decoder GroupContext := do
  let version ← decodeProtocolVersion
  let cipherSuite ← decodeCiphersuite
  let groupId ← decodeVarLenData
  let epoch ← decodeUint64
  let treeHash ← decodeVarLenData
  let confirmedTranscriptHash ← decodeVarLenData
  let extensions ← decodeVarLenType decodeExtension
  pure {
    version := version
    cipherSuite := cipherSuite
    groupId := groupId
    epoch := epoch
    treeHash := treeHash
    confirmedTranscriptHash := confirmedTranscriptHash
    extensions := extensions }

/-! ## Values a decoder can return -/

def CredentialTypeName.WellFormed (name : CredentialTypeName) : Prop := ∃ n, ofNumber n = name

def CapabilityProtocolVersion.WellFormed (version : CapabilityProtocolVersion) : Prop :=
  ∃ n, ofNumber n = version

def CiphersuiteName.WellFormed (name : CiphersuiteName) : Prop := ∃ n, ofNumber n = name

def Credential.WellFormed : Credential → Prop
  | .basic _ => True
  | .x509 _ => True
  | .custom _ _ => False

structure Capabilities.WellFormed (c : Capabilities) : Prop where
  versions : ∀ v ∈ c.versions, v.WellFormed
  ciphersuites : ∀ s ∈ c.ciphersuites, s.WellFormed
  credentials : ∀ n ∈ c.credentials, n.WellFormed

/-- A number is outside the default code points. -/
def ExtensionType.WellFormed : ExtensionType → Prop
  | .default _ => True
  | .number n => ∀ name, defaultExtensionTypes name ≠ n

def Extension.WellFormed (e : Extension) : Prop := e.extensionType.WellFormed

/-- In the range of a `uint64`. -/
def IsUint64 (n : ℤ) : Prop := 0 ≤ n ∧ n < 2 ^ 64

structure Lifetime.WellFormed (l : Lifetime) : Prop where
  notBefore : IsUint64 l.notBefore
  notAfter : IsUint64 l.notAfter

def LeafNodeInfo.WellFormed : LeafNodeInfo → Prop
  | .key_package lifetime => lifetime.WellFormed
  | .update => True
  | .commit _ => True

structure LeafNode.WellFormed (leaf : LeafNode) : Prop where
  credential : leaf.credential.WellFormed
  capabilities : leaf.capabilities.WellFormed
  info : leaf.info.WellFormed
  extensions : ∀ e ∈ leaf.extensions, e.WellFormed

structure GroupContext.WellFormed (gc : GroupContext) : Prop where
  cipherSuite : gc.cipherSuite.WellFormed
  epoch : IsUint64 gc.epoch
  extensions : ∀ e ∈ gc.extensions, e.WellFormed

/-! ## Canonical decoders -/

theorem CredentialTypeName.toNumber_ofNumber (n : ℤ) : (ofNumber n).toNumber = n :=
  toNumber_openEnumNumberToKey fun _ => rfl

theorem CapabilityProtocolVersion.toNumber_ofNumber (n : ℤ) : (ofNumber n).toNumber = n :=
  toNumber_openEnumNumberToKey fun _ => rfl

theorem CiphersuiteName.toNumber_ofNumber (n : ℤ) : (ofNumber n).toNumber = n :=
  toNumber_openEnumNumberToKey fun _ => rfl

theorem canonical_credentialType : Canonical encodeCredentialType decodeCredentialType :=
  canonical_openEnum fun _ => rfl

theorem canonical_capabilityProtocolVersion :
    Canonical encodeCapabilityProtocolVersion decodeCapabilityProtocolVersion :=
  canonical_openEnum fun _ => rfl

theorem canonical_ciphersuite : Canonical encodeCiphersuite decodeCiphersuite :=
  canonical_openEnum fun _ => rfl

theorem canonical_protocolVersion : Canonical encodeProtocolVersion decodeProtocolVersion :=
  canonical_enum

theorem canonical_credential : Canonical encodeCredential decodeCredential := by
  apply canonical_credentialType.tagged
  intro credentialType
  cases credentialType with
  | basic => exact canonical_varLenData.map fun _ _ hy _ hx => concat_pair hx hy
  | x509 =>
    exact (canonical_varLenType canonical_varLenData).map fun _ _ hy _ hx => concat_pair hx hy
  | other n => exact Parses.nothing

theorem canonical_capabilities : Canonical encodeCapabilities decodeCapabilities :=
  .field (canonical_varLenType canonical_capabilityProtocolVersion)
    (fun _ => .bind fun _ => .bind fun _ => .bind fun _ => .bind fun _ => .pure rfl) fun _ =>
  .field (canonical_varLenType canonical_ciphersuite)
    (fun _ => .bind fun _ => .bind fun _ => .bind fun _ => .pure rfl) fun _ =>
  .field (canonical_varLenType (canonical_uint 2))
    (fun _ => .bind fun _ => .bind fun _ => .pure rfl) fun _ =>
  .field (canonical_varLenType (canonical_uint 2)) (fun _ => .bind fun _ => .pure rfl) fun _ =>
  .field (canonical_varLenType canonical_credentialType) (fun _ => .pure rfl) fun _ =>
  canonical_nil

theorem canonical_extensionType : Canonical encodeExtensionType decodeExtensionType := by
  apply Parses.or
  · exact Parses.map (canonical_enum (t := defaultExtensionTypes)) fun _ _ hx => hx
  · exact Parses.map (canonical_uint 2) fun _ _ hx => hx

theorem canonical_extension : Canonical encodeExtension decodeExtension :=
  .field canonical_extensionType (fun _ => .bind fun _ => .pure rfl) fun _ =>
  .field canonical_varLenData (fun _ => .pure rfl) fun _ =>
  canonical_nil

theorem canonical_lifetime : Canonical encodeLifetime decodeLifetime :=
  .field canonical_uint64 (fun _ => .bind fun _ => .pure rfl) fun _ =>
  .field canonical_uint64 (fun _ => .pure rfl) fun _ =>
  canonical_nil

theorem canonical_leafNodeSource : Canonical encodeLeafNodeSource decodeLeafNodeSource :=
  canonical_enum

theorem canonical_leafNodeInfo : Canonical encodeLeafNodeInfo decodeLeafNodeInfo := by
  apply canonical_leafNodeSource.tagged
  intro leafNodeSource
  cases leafNodeSource with
  | key_package => exact canonical_lifetime.map fun _ _ hy _ hx => concat_pair hx hy
  | update => exact Parses.pure fun x hx => by rw [List.append_nil]; exact hx
  | commit => exact canonical_varLenData.map fun _ _ hy _ hx => concat_pair hx hy

/-- The part of a leaf `decodeLeafNodeData` reads. -/
def LeafNode.data (leaf : LeafNode) : LeafNodeData where
  hpkePublicKey := leaf.hpkePublicKey
  signaturePublicKey := leaf.signaturePublicKey
  credential := leaf.credential
  capabilities := leaf.capabilities

/-- `encodeLeafNodeData` as an encoder of the part it writes. -/
def encodeData : Encoder LeafNodeData := contramapEncoders [
  contramapEncoder encodeVarLenData LeafNodeData.hpkePublicKey,
  contramapEncoder encodeVarLenData LeafNodeData.signaturePublicKey,
  contramapEncoder encodeCredential LeafNodeData.credential,
  contramapEncoder encodeCapabilities LeafNodeData.capabilities]

theorem canonical_leafNodeData : Canonical encodeData decodeLeafNodeData :=
  .field canonical_varLenData
    (fun _ => .bind fun _ => .bind fun _ => .bind fun _ => .pure rfl) fun _ =>
  .field canonical_varLenData (fun _ => .bind fun _ => .bind fun _ => .pure rfl) fun _ =>
  .field canonical_credential (fun _ => .bind fun _ => .pure rfl) fun _ =>
  .field canonical_capabilities (fun _ => .pure rfl) fun _ =>
  canonical_nil

theorem canonical_extensions :
    Canonical (encodeVarLenType encodeExtension) (decodeVarLenType decodeExtension) :=
  canonical_varLenType canonical_extension

theorem canonical_leafNode : Canonical encodeLeafNode decodeLeafNode :=
  .field (f := LeafNode.data) canonical_leafNodeData
    (fun _ => .bind fun _ => .bind fun _ => .bind fun _ => .pure rfl) fun _ =>
  .field canonical_leafNodeInfo (fun _ => .bind fun _ => .bind fun _ => .pure rfl) fun _ =>
  .field canonical_extensions (fun _ => .bind fun _ => .pure rfl) fun _ =>
  .field canonical_varLenData (fun _ => .pure rfl) fun _ =>
  canonical_nil

theorem LeafNode.leaf_of_asKeyPackage {leaf : LeafNode} {l : LeafNodeKeyPackage}
    (h : leaf.asKeyPackage = some l) : l.leaf = leaf := by
  unfold asKeyPackage at h
  split at h
  · rw [← Option.some.inj h]
  · cases h

theorem LeafNode.leaf_of_asUpdate {leaf : LeafNode} {l : LeafNodeUpdate}
    (h : leaf.asUpdate = some l) : l.leaf = leaf := by
  unfold asUpdate at h
  split at h
  · rw [← Option.some.inj h]
  · cases h

theorem LeafNode.leaf_of_asCommit {leaf : LeafNode} {l : LeafNodeCommit}
    (h : leaf.asCommit = some l) : l.leaf = leaf := by
  unfold asCommit at h
  split at h
  · rw [← Option.some.inj h]
  · cases h

theorem canonical_leafNodeKeyPackage :
    Canonical (contramapEncoder encodeLeafNode LeafNodeKeyPackage.leaf) decodeLeafNodeKeyPackage := by
  apply canonical_leafNode.filterMap
  intro leaf l x hl hx
  rw [contramapEncoder, LeafNode.leaf_of_asKeyPackage hl, hx]

theorem canonical_leafNodeUpdate :
    Canonical (contramapEncoder encodeLeafNode LeafNodeUpdate.leaf) decodeLeafNodeUpdate := by
  apply canonical_leafNode.filterMap
  intro leaf l x hl hx
  rw [contramapEncoder, LeafNode.leaf_of_asUpdate hl, hx]

theorem canonical_leafNodeCommit :
    Canonical (contramapEncoder encodeLeafNode LeafNodeCommit.leaf) decodeLeafNodeCommit := by
  apply canonical_leafNode.filterMap
  intro leaf l x hl hx
  rw [contramapEncoder, LeafNode.leaf_of_asCommit hl, hx]

theorem canonical_groupContext : Canonical encodeGroupContext decodeGroupContext :=
  .field canonical_protocolVersion (fun _ => .bind fun _ => .bind fun _ => .bind fun _ =>
    .bind fun _ => .bind fun _ => .bind fun _ => .pure rfl) fun _ =>
  .field canonical_ciphersuite (fun _ => .bind fun _ => .bind fun _ => .bind fun _ =>
    .bind fun _ => .bind fun _ => .pure rfl) fun _ =>
  .field canonical_varLenData (fun _ => .bind fun _ => .bind fun _ => .bind fun _ =>
    .bind fun _ => .pure rfl) fun _ =>
  .field canonical_uint64
    (fun _ => .bind fun _ => .bind fun _ => .bind fun _ => .pure rfl) fun _ =>
  .field canonical_varLenData (fun _ => .bind fun _ => .bind fun _ => .pure rfl) fun _ =>
  .field canonical_varLenData (fun _ => .bind fun _ => .pure rfl) fun _ =>
  .field canonical_extensions (fun _ => .pure rfl) fun _ =>
  canonical_nil

/-! ## Recovered values -/

theorem recovers_credentialType {name : CredentialTypeName} (h : name.WellFormed) :
    Recovers decodeCredentialType (encodeCredentialType name) name := by
  obtain ⟨n, rfl⟩ := h
  exact recovers_openEnum (congrArg _ (CredentialTypeName.toNumber_ofNumber n))

theorem recovers_capabilityProtocolVersion {version : CapabilityProtocolVersion}
    (h : version.WellFormed) : Recovers decodeCapabilityProtocolVersion
      (encodeCapabilityProtocolVersion version) version := by
  obtain ⟨n, rfl⟩ := h
  exact recovers_openEnum (congrArg _ (CapabilityProtocolVersion.toNumber_ofNumber n))

theorem recovers_ciphersuite {name : CiphersuiteName} (h : name.WellFormed) :
    Recovers decodeCiphersuite (encodeCiphersuite name) name := by
  obtain ⟨n, rfl⟩ := h
  exact recovers_openEnum (congrArg _ (CiphersuiteName.toNumber_ofNumber n))

theorem recovers_protocolVersion (version : ProtocolVersionName) :
    Recovers decodeProtocolVersion (encodeProtocolVersion version) version :=
  recovers_enum (by cases version; rfl)

theorem recovers_credential {c : Credential} (h : c.WellFormed) :
    Recovers decodeCredential (encodeCredential c) c := by
  cases c with
  | basic identity =>
    exact (recovers_credentialType ⟨1, rfl⟩).bind (recovers_varLenData identity).map
      fun _ hz => concat_pair_eq_ok hz
  | x509 certificates =>
    exact (recovers_credentialType ⟨2, rfl⟩).bind
      (recovers_varLenType nonEmpty_varLenData fun a _ => recovers_varLenData a).map
      fun _ hz => concat_pair_eq_ok hz
  | custom codePoint data => cases h

theorem nonEmpty_credentialType : NonEmpty encodeCredentialType := nonEmpty_uint16.comp _

theorem nonEmpty_capabilityProtocolVersion : NonEmpty encodeCapabilityProtocolVersion :=
  nonEmpty_uint16.comp _

theorem nonEmpty_ciphersuite : NonEmpty encodeCiphersuite := nonEmpty_uint16.comp _

theorem recovers_capabilities {c : Capabilities} (h : c.WellFormed) :
    Recovers decodeCapabilities (encodeCapabilities c) c :=
  .field (recovers_varLenType nonEmpty_capabilityProtocolVersion
    fun v hv => recovers_capabilityProtocolVersion (h.versions v hv)) <|
  .field (recovers_varLenType nonEmpty_ciphersuite
    fun s hs => recovers_ciphersuite (h.ciphersuites s hs)) <|
  .field (recovers_varLenType nonEmpty_uint16 fun n _ => recovers_uint 2 n) <|
  .field (recovers_varLenType nonEmpty_uint16 fun n _ => recovers_uint 2 n) <|
  .field (recovers_varLenType nonEmpty_credentialType
    fun n hn => recovers_credentialType (h.credentials n hn)) recovers_nil

theorem recovers_extensionType {t : ExtensionType} (h : t.WellFormed) :
    Recovers decodeExtensionType (encodeExtensionType t) t := by
  cases t with
  | default name =>
    apply Recovers.or_left
    have hname : enumNumberToKey [.application_id, .ratchet_tree, .required_capabilities,
        .external_pub, .external_senders] defaultExtensionTypes (defaultExtensionTypes name) =
          some name := by
      cases name <;> rfl
    exact (recovers_enum (w := 2) hname).map
  | number n =>
    apply Recovers.or_right
    · intro l x r hx
      have hfind : enumNumberToKey [.application_id, .ratchet_tree, .required_capabilities,
          .external_pub, .external_senders] defaultExtensionTypes n = none := by
        rw [enumNumberToKey, List.find?_eq_none]
        intro name _
        simpa using h name
      have hn := recovers_uint 2 n l x r hx
      simp only [mapDecoder, decodeDefaultExtensionType, mapDecoderOption, decodeUint16, bind,
        Decoding.flatMap, Decoding.filterMap, hn, hfind, Option.map_none]
    · exact (recovers_uint 2 n).map

theorem recovers_extension {e : Extension} (h : e.WellFormed) :
    Recovers decodeExtension (encodeExtension e) e :=
  .field (recovers_extensionType h) <|
  .field (recovers_varLenData _) recovers_nil

theorem recovers_lifetime {l : Lifetime} (h : l.WellFormed) :
    Recovers decodeLifetime (encodeLifetime l) l :=
  .field (recovers_uint64 h.notBefore.1 h.notBefore.2) <|
  .field (recovers_uint64 h.notAfter.1 h.notAfter.2) recovers_nil

theorem recovers_leafNodeSource (source : LeafNodeSourceName) :
    Recovers decodeLeafNodeSource (encodeLeafNodeSource source) source :=
  recovers_enum (by cases source <;> rfl)

theorem recovers_leafNodeInfo {info : LeafNodeInfo} (h : info.WellFormed) :
    Recovers decodeLeafNodeInfo (encodeLeafNodeInfo info) info := by
  cases info with
  | key_package lifetime =>
    exact (recovers_leafNodeSource .key_package).bind (recovers_lifetime h).map
      fun _ hz => concat_pair_eq_ok hz
  | update =>
    exact (recovers_leafNodeSource .update).bind (Recovers.pure (s := .ok []) rfl)
      fun z hz => ⟨z, [], hz, rfl, (List.append_nil z).symm⟩
  | commit parentHash =>
    exact (recovers_leafNodeSource .commit).bind (recovers_varLenData parentHash).map
      fun _ hz => concat_pair_eq_ok hz

theorem recovers_leafNodeData {leaf : LeafNode} (h : leaf.WellFormed) :
    Recovers decodeLeafNodeData (encodeData leaf.data) leaf.data :=
  .field (recovers_varLenData _) <|
  .field (recovers_varLenData _) <|
  .field (recovers_credential h.credential) <|
  .field (recovers_capabilities h.capabilities) recovers_nil

theorem nonEmpty_extension : NonEmpty encodeExtension :=
  nonEmpty_cons (nonEmpty_uint16.comp _)

theorem recovers_extensions {l : List Extension} (h : ∀ e ∈ l, e.WellFormed) :
    Recovers (decodeVarLenType decodeExtension) (encodeVarLenType encodeExtension l) l :=
  recovers_varLenType nonEmpty_extension fun e he => recovers_extension (h e he)

theorem recovers_leafNode {leaf : LeafNode} (h : leaf.WellFormed) :
    Recovers decodeLeafNode (encodeLeafNode leaf) leaf :=
  .field (f := LeafNode.data) (recovers_leafNodeData h) <|
  .field (recovers_leafNodeInfo h.info) <|
  .field (recovers_extensions h.extensions) <|
  .field (recovers_varLenData _) recovers_nil

theorem LeafNodeKeyPackage.asKeyPackage_leaf (l : LeafNodeKeyPackage) :
    l.leaf.asKeyPackage = some l := by
  obtain ⟨leaf, lifetime, source⟩ := l
  unfold LeafNode.asKeyPackage
  split
  · rename_i lifetime' h
    obtain rfl := LeafNodeInfo.key_package.inj (source.symm.trans h)
    rfl
  · rename_i h
    exact absurd source (h lifetime)

theorem LeafNodeUpdate.asUpdate_leaf (l : LeafNodeUpdate) : l.leaf.asUpdate = some l := by
  obtain ⟨leaf, source⟩ := l
  unfold LeafNode.asUpdate
  split
  · rfl
  · rename_i h
    exact absurd source h

theorem LeafNodeCommit.asCommit_leaf (l : LeafNodeCommit) : l.leaf.asCommit = some l := by
  obtain ⟨leaf, parentHash, source⟩ := l
  unfold LeafNode.asCommit
  split
  · rename_i parentHash' h
    obtain rfl := LeafNodeInfo.commit.inj (source.symm.trans h)
    rfl
  · rename_i h
    exact absurd source (h parentHash)

theorem recovers_leafNodeKeyPackage {l : LeafNodeKeyPackage} (h : l.leaf.WellFormed) :
    Recovers decodeLeafNodeKeyPackage (encodeLeafNode l.leaf) l :=
  (recovers_leafNode h).filterMap l.asKeyPackage_leaf

theorem recovers_leafNodeUpdate {l : LeafNodeUpdate} (h : l.leaf.WellFormed) :
    Recovers decodeLeafNodeUpdate (encodeLeafNode l.leaf) l :=
  (recovers_leafNode h).filterMap l.asUpdate_leaf

theorem recovers_leafNodeCommit {l : LeafNodeCommit} (h : l.leaf.WellFormed) :
    Recovers decodeLeafNodeCommit (encodeLeafNode l.leaf) l :=
  (recovers_leafNode h).filterMap l.asCommit_leaf

theorem recovers_groupContext {gc : GroupContext} (h : gc.WellFormed) :
    Recovers decodeGroupContext (encodeGroupContext gc) gc :=
  .field (recovers_protocolVersion _) <|
  .field (recovers_ciphersuite h.cipherSuite) <|
  .field (recovers_varLenData _) <|
  .field (recovers_uint64 h.epoch.1 h.epoch.2) <|
  .field (recovers_varLenData _) <|
  .field (recovers_varLenData _) <|
  .field (recovers_extensions h.extensions) recovers_nil

end WebcryptoMls
