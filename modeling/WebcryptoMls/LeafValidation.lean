import WebcryptoMls.ClientState

/-!
# Validation of leaf nodes

The checks a leaf has to pass wherever it enters a tree: in a key package, in an
Update, in a commit's path, or in a tree a joiner is given. A check returns the
error it found, and throws where a decoder or a primitive throws.
-/
namespace WebcryptoMls
open PrefixCode

/-! ## Ciphersuites -/

inductive KemAlgorithm where
  | DHKEM_P256_HKDF_SHA256
  | DHKEM_X25519_HKDF_SHA256
  | DHKEM_X448_HKDF_SHA512
  | DHKEM_P521_HKDF_SHA512
  | DHKEM_P384_HKDF_SHA384
  | ML_KEM_512
  | ML_KEM_768
  | ML_KEM_1024
  | X_Wing
  deriving Repr, DecidableEq

inductive SignatureAlgorithm where
  | Ed25519
  | Ed448
  | P256
  | P384
  | P521
  | ML_DSA_87
  deriving Repr, DecidableEq

/-- The algorithms the validation of keys depends on. -/
structure Ciphersuite where
  kem : KemAlgorithm
  signature : SignatureAlgorithm
  deriving Repr, DecidableEq

/-- A name the table does not have reads `undefined`, and so does every field of it. -/
def getCiphersuiteFromName : CiphersuiteName → Except MlsError Ciphersuite
  | .MLS_128_DHKEMX25519_AES128GCM_SHA256_Ed25519 => pure ⟨.DHKEM_X25519_HKDF_SHA256, .Ed25519⟩
  | .MLS_128_DHKEMP256_AES128GCM_SHA256_P256 => pure ⟨.DHKEM_P256_HKDF_SHA256, .P256⟩
  | .MLS_128_DHKEMX25519_CHACHA20POLY1305_SHA256_Ed25519 =>
    pure ⟨.DHKEM_X25519_HKDF_SHA256, .Ed25519⟩
  | .MLS_256_DHKEMX448_AES256GCM_SHA512_Ed448 => pure ⟨.DHKEM_X448_HKDF_SHA512, .Ed448⟩
  | .MLS_256_DHKEMP521_AES256GCM_SHA512_P521 => pure ⟨.DHKEM_P521_HKDF_SHA512, .P521⟩
  | .MLS_256_DHKEMX448_CHACHA20POLY1305_SHA512_Ed448 => pure ⟨.DHKEM_X448_HKDF_SHA512, .Ed448⟩
  | .MLS_256_DHKEMP384_AES256GCM_SHA384_P384 => pure ⟨.DHKEM_P384_HKDF_SHA384, .P384⟩
  | .MLS_128_MLKEM512_AES128GCM_SHA256_Ed25519 => pure ⟨.ML_KEM_512, .Ed25519⟩
  | .MLS_128_MLKEM512_CHACHA20POLY1305_SHA256_Ed25519 => pure ⟨.ML_KEM_512, .Ed25519⟩
  | .MLS_256_MLKEM768_AES256GCM_SHA384_Ed25519 => pure ⟨.ML_KEM_768, .Ed25519⟩
  | .MLS_256_MLKEM768_CHACHA20POLY1305_SHA384_Ed25519 => pure ⟨.ML_KEM_768, .Ed25519⟩
  | .MLS_256_MLKEM1024_AES256GCM_SHA512_Ed25519 => pure ⟨.ML_KEM_1024, .Ed25519⟩
  | .MLS_256_MLKEM1024_CHACHA20POLY1305_SHA512_Ed25519 => pure ⟨.ML_KEM_1024, .Ed25519⟩
  | .MLS_256_XWING_AES256GCM_SHA512_Ed25519 => pure ⟨.X_Wing, .Ed25519⟩
  | .MLS_256_XWING_CHACHA20POLY1305_SHA512_Ed25519 => pure ⟨.X_Wing, .Ed25519⟩
  | .MLS_256_MLKEM1024_AES256GCM_SHA512_MLDSA87 => pure ⟨.ML_KEM_1024, .ML_DSA_87⟩
  | .MLS_256_MLKEM1024_CHACHA20POLY1305_SHA512_MLDSA87 => pure ⟨.ML_KEM_1024, .ML_DSA_87⟩
  | .MLS_256_XWING_AES256GCM_SHA512_MLDSA87 => pure ⟨.X_Wing, .ML_DSA_87⟩
  | .MLS_256_XWING_CHACHA20POLY1305_SHA512_MLDSA87 => pure ⟨.X_Wing, .ML_DSA_87⟩
  | .other _ => throw (typeError "Cannot read properties of undefined")

/-! ## Keys of small order -/

def P25519 : ℕ := 2 ^ 255 - 19

/-- The `y` of the order-8 points. -/
def Y8_25519 : ℕ := 0x7a03ac9277fdc74ec6cc392cfa53202a0f67100d760b3cba4fd84d3d706a17c7

def SMALL_ORDER_Y_25519 : List ℕ := [0, 1, P25519 - 1, Y8_25519, P25519 - Y8_25519]

def P448 : ℕ := 2 ^ 448 - 2 ^ 224 - 1

def SMALL_ORDER_Y_448 : List ℕ := [0, 1, P448 - 1]

def littleEndian (bytes : Bytes) : ℕ := bytes.foldr (fun byte n => n * 256 + byte.toNat) 0

def isSmallOrderEd25519 (key : Bytes) : Bool :=
  if key.length ≠ 32 then false
  else SMALL_ORDER_Y_25519.contains (littleEndian key % 2 ^ 255 % P25519)

def isSmallOrderEd448 (key : Bytes) : Bool :=
  if key.length ≠ 57 then false
  else SMALL_ORDER_Y_448.contains (littleEndian (key.take 56) % P448)

def isSmallOrderSignatureKey (alg : SignatureAlgorithm) (key : Bytes) : Bool :=
  match alg with
  | .Ed25519 => isSmallOrderEd25519 key
  | .Ed448 => isSmallOrderEd448 key
  | _ => false

def U8_25519_A : ℕ := 0x00b8495f16056286fdb1329ceb8d09da6ac49ff1fae35616aeb8413b7c7aebe0

def U8_25519_B : ℕ := 0x57119fd0dd4e22d8868e1c58c45c44045bef839c55b1d0b1248c50a3bc959c5f

def LOW_ORDER_U_25519 : List ℕ := [0, 1, P25519 - 1, U8_25519_A, U8_25519_B]

def LOW_ORDER_U_448 : List ℕ := [0, 1, P448 - 1]

def isLowOrderX25519 (key : Bytes) : Bool :=
  if key.length ≠ 32 then false
  else LOW_ORDER_U_25519.contains (littleEndian key % 2 ^ 255 % P25519)

def isLowOrderX448 (key : Bytes) : Bool :=
  if key.length ≠ 56 then false else LOW_ORDER_U_448.contains (littleEndian key % P448)

def isLowOrderKemPublicKey (alg : KemAlgorithm) (key : Bytes) : Bool :=
  match alg with
  | .DHKEM_X25519_HKDF_SHA256 => isLowOrderX25519 key
  | .DHKEM_X448_HKDF_SHA512 => isLowOrderX448 key
  | _ => false

/-! ## Capabilities -/

structure RequiredCapabilities where
  extensionTypes : List ℤ
  proposalTypes : List ℤ
  credentialTypes : List CredentialTypeName

def decodeRequiredCapabilities : Decoder RequiredCapabilities := do
  let extensionTypes ← decodeVarLenType decodeUint16
  let proposalTypes ← decodeVarLenType decodeUint16
  let credentialTypes ← decodeVarLenType decodeCredentialType
  pure {
    extensionTypes := extensionTypes
    proposalTypes := proposalTypes
    credentialTypes := credentialTypes }

def capabiltiesAreSupported (caps : RequiredCapabilities) (cs : Capabilities) : Bool :=
  caps.credentialTypes.all (fun c => cs.credentials.contains c) &&
    caps.extensionTypes.all (fun e => cs.extensions.contains e) &&
    caps.proposalTypes.all fun p => cs.proposals.contains p

/-- `extensions.find((e) => e.extensionType === name)` -/
def findExtension (extensions : List Extension) (name : DefaultExtensionTypeName) :
    Option Extension :=
  extensions.find? fun e => e.extensionType = .default name

def isDefaultExtension : ExtensionType → Bool
  | .default _ => true
  | .number _ => false

def extensionsSupportedByCapabilities (requiredExtensions : List Extension)
    (capabilities : Capabilities) : Bool :=
  (requiredExtensions.filter fun ex => !isDefaultExtension ex.extensionType).all fun ex =>
    capabilities.extensions.contains (extensionTypeToNumber ex.extensionType)

def requiredCapabilitiesError (leafNode : LeafNode) (extensions : List Extension) :
    Except MlsError (Option MlsError) :=
  match findExtension extensions .required_capabilities with
  | none => pure none
  | some required => do
    let caps ← decodeRequiredCapabilities required.extensionData 0
    match caps with
    | none => pure (some (codecError "Could not decode required_capabilities"))
    | some (caps, _) =>
      if capabiltiesAreSupported caps leafNode.capabilities then pure none
      else pure (some (validationError "LeafNode does not support required capabilities"))

/-! ## Leaf nodes -/

def leafAt (tree : RatchetTree) (leafIndex : ℕ) : Option LeafNode :=
  match nodeAt tree (leafToNodeIndex leafIndex) with
  | some (.leaf leaf) => some leaf
  | _ => none

/-- The credential a leaf carries before it is replaced. -/
def credentialAtLeaf (tree : RatchetTree) (leafIndex : ℕ) : Option Credential :=
  (leafAt tree leafIndex).map LeafNode.credential

/-- What one leaf is asked of all others. A map that counts a key's occurrences is
the list of them here. -/
structure LeafSummary where
  supportedByAll : Option (List CredentialTypeName)
  credentialTypes : List CredentialTypeName
  leafHpkeKeys : List Bytes
  leafSignatureKeys : List Bytes
  parentHpkeKeys : List Bytes

/-- The round of `summarizeLeaves` for one node. -/
def summarizeNode (summary : LeafSummary) : Option Node → LeafSummary
  | none => summary
  | some (.parent parent) =>
    { summary with parentHpkeKeys := summary.parentHpkeKeys ++ [parent.hpkePublicKey] }
  | some (.leaf leaf) => {
    supportedByAll := match summary.supportedByAll with
      | none => some leaf.capabilities.credentials
      | some supported => some (supported.filter fun c => leaf.capabilities.credentials.contains c)
    credentialTypes := summary.credentialTypes ++ [leaf.credential.credentialType]
    leafHpkeKeys := summary.leafHpkeKeys ++ [leaf.hpkePublicKey]
    leafSignatureKeys := summary.leafSignatureKeys ++ [leaf.signaturePublicKey]
    parentHpkeKeys := summary.parentHpkeKeys }

def summarizeLeaves (tree : RatchetTree) : LeafSummary :=
  tree.foldl summarizeNode ⟨none, [], [], [], []⟩

/-- How many leaves carry a key, not counting the leaf that is replaced. -/
def countOthers {α : Type} [DecidableEq α] (counts : List α) (key : α) (excluded : Option LeafNode)
    (keyOf : LeafNode → α) : ℤ :=
  let own : ℤ := if excluded.map keyOf = some key then 1 else 0
  counts.count key - own

def hasSmallOrderSignatureKey (leafNode : LeafNode) (groupContext : GroupContext) :
    Except MlsError Bool := do
  let suite ← getCiphersuiteFromName groupContext.cipherSuite
  pure (isSmallOrderSignatureKey suite.signature leafNode.signaturePublicKey)

def validateHpkePublicKey (key : Bytes) (groupContext : GroupContext) (hpke : Hpke)
    (what : String) : Except MlsError (Option MlsError) := do
  let suite ← getCiphersuiteFromName groupContext.cipherSuite
  if isLowOrderKemPublicKey suite.kem key then
    pure (some (validationError (what ++ " is of low order")))
  else match hpke.importPublicKey key with
    | .ok _ => pure none
    | .error _ => pure (some (validationError (what ++ " is not a public key for the ciphersuite")))

/-- The checks of `validateLeafNodeCommon` that neither decode nor call a service. -/
def validateLeafNodeAmong (leafNode : LeafNode) (leaves : LeafSummary)
    (replaced : Option LeafNode) : Option MlsError :=
  if leaves.supportedByAll.any fun supported =>
      !supported.contains leafNode.credential.credentialType then
    some (validationError
      "LeafNode has credential that is not supported by member of the group")
  else if leaves.credentialTypes.any fun type =>
      !leafNode.capabilities.credentials.contains type &&
        countOthers leaves.credentialTypes type replaced (fun l => l.credential.credentialType) > 0 then
    some (validationError
      "LeafNode does not support a credential type in use by a member of the group")
  else if !extensionsSupportedByCapabilities leafNode.extensions leafNode.capabilities then
    some (validationError "LeafNode contains extension not listed in capabilities")
  else if countOthers leaves.leafHpkeKeys leafNode.hpkePublicKey replaced LeafNode.hpkePublicKey > 0 ∨
      countOthers leaves.leafSignatureKeys leafNode.signaturePublicKey replaced
        LeafNode.signaturePublicKey > 0 then
    some (validationError "hpke and signature keys not unique")
  else if leaves.parentHpkeKeys.contains leafNode.hpkePublicKey then
    some (validationError "hpke key matches an existing parent node key")
  else none

def validateLeafNodeCommon (leafNode : LeafNode) (groupContext : GroupContext) (tree : RatchetTree)
    (authService : AuthenticationService) (hpke : Hpke) (leaves : LeafSummary)
    (leafIndex : Option ℕ) (priorCredential : Option Credential) :
    Except MlsError (Option MlsError) := do
  let keyError ← validateHpkePublicKey leafNode.hpkePublicKey groupContext hpke
    "LeafNode encryption key"
  match keyError with
  | some e => pure (some e)
  | none => do
    let credentialValid ← authService.validateCredential leafNode.credential
      leafNode.signaturePublicKey priorCredential
    if !credentialValid then pure (some (validationError "Could not validate credential"))
    else do
      let capabilitiesError ← requiredCapabilitiesError leafNode groupContext.extensions
      match capabilitiesError with
      | some e => pure (some e)
      | none => pure (validateLeafNodeAmong leafNode leaves (leafIndex.bind (leafAt tree)))

def validateLeafNodeUpdateOrCommit (leafNode : LeafNode) (leafIndex : ℕ)
    (groupContext : GroupContext) (tree : RatchetTree) (authService : AuthenticationService)
    (s : Signature) (hpke : Hpke) (priorCredential : Option Credential) (leaves : LeafSummary) :
    Except MlsError (Option MlsError) := do
  let smallOrder ← hasSmallOrderSignatureKey leafNode groupContext
  if smallOrder then pure (some (validationError "Signature key is of small order"))
  else do
    let signatureValid ← verifyLeafNodeSignature leafNode groupContext.groupId leafIndex s
    if !signatureValid then
      pure (some (cryptoVerificationError "Could not verify leaf node signature"))
    else
      validateLeafNodeCommon leafNode groupContext tree authService hpke leaves (some leafIndex)
        priorCredential

/-- An Update that keeps the sender's current key is refused. -/
def validateUpdateRotatesKey (leafNode : LeafNode) (leafIndex : ℕ) (tree : RatchetTree) :
    Option MlsError :=
  match nodeAt tree (leafToNodeIndex leafIndex) with
  | some (.leaf current) =>
    if constantTimeEqual current.hpkePublicKey leafNode.hpkePublicKey then
      some (validationError "Update must carry a new encryption key")
    else none
  | _ => none

def verifyLeafNodeSignatureKeyPackage (leaf : LeafNode) (sig : Signature) : Except MlsError Bool := do
  let content ← encodeLeafNodeTBS .key_package leaf
  verifyWithLabel leaf.signaturePublicKey "LeafNodeTBS" content leaf.signature sig

/-- The time is the clock's, in seconds. -/
def validateLifetime (leafNode : LeafNode) (sentByClient : Bool) (config : LifetimeConfig)
    (currentTime : ℤ) : Option MlsError :=
  if sentByClient || config.validateLifetimeOnReceive then
    match leafNode.info with
    | .key_package lifetime =>
      if lifetime.notBefore > currentTime ∨ lifetime.notAfter < currentTime then
        some (validationError "Current time not within Lifetime")
      else if lifetime.notAfter - lifetime.notBefore > config.maximumTotalLifetime then
        some (validationError "LeafNode lifetime exceeds maximumTotalLifetime")
      else none
    | _ => none
  else none

def validateLeafNodeKeyPackage (leafNode : LeafNode) (groupContext : GroupContext)
    (tree : RatchetTree) (sentByClient : Bool) (config : LifetimeConfig)
    (authService : AuthenticationService) (leafIndex : Option ℕ) (s : Signature) (hpke : Hpke)
    (leaves : LeafSummary) (currentTime : ℤ) : Except MlsError (Option MlsError) := do
  let smallOrder ← hasSmallOrderSignatureKey leafNode groupContext
  if smallOrder then pure (some (validationError "Signature key is of small order"))
  else do
    let signatureValid ← verifyLeafNodeSignatureKeyPackage leafNode s
    if !signatureValid then
      pure (some (cryptoVerificationError "Could not verify leaf node signature"))
    else match validateLifetime leafNode sentByClient config currentTime with
      | some e => pure (some e)
      | none =>
        validateLeafNodeCommon leafNode groupContext tree authService hpke leaves leafIndex none

def verifyKeyPackage (kp : KeyPackage) (s : Signature) : Except MlsError Bool := do
  let content ← encodeKeyPackageTBS kp.tbs
  verifyWithLabel kp.leafNode.leaf.signaturePublicKey "KeyPackageTBS" content kp.signature s

def validateKeyPackage (kp : KeyPackage) (groupContext : GroupContext) (tree : RatchetTree)
    (sentByClient : Bool) (config : LifetimeConfig) (authService : AuthenticationService)
    (s : Signature) (hpke : Hpke) (currentTime : ℤ) : Except MlsError (Option MlsError) :=
  if kp.cipherSuite ≠ groupContext.cipherSuite then
    pure (some (validationError "Invalid CipherSuite"))
  else if kp.version ≠ groupContext.version then
    pure (some (validationError "Invalid mls version"))
  else do
    let leafNodeError ← validateLeafNodeKeyPackage kp.leafNode.leaf groupContext tree sentByClient
      config authService none s hpke (summarizeLeaves tree) currentTime
    match leafNodeError with
    | some e => pure (some e)
    | none => do
      let signatureValid ← verifyKeyPackage kp s
      if !signatureValid then
        pure (some (cryptoVerificationError "Invalid keypackage signature"))
      else if constantTimeEqual kp.initKey kp.leafNode.leaf.hpkePublicKey then
        pure (some (validationError "Cannot have identicial init and encryption keys"))
      else validateHpkePublicKey kp.initKey groupContext hpke "KeyPackage initKey"

/-! ## External senders -/

structure ExternalSender where
  signaturePublicKey : Bytes
  credential : Credential
  deriving Repr, DecidableEq

def decodeExternalSender : Decoder ExternalSender := do
  let signaturePublicKey ← decodeVarLenData
  let credential ← decodeCredential
  pure { signaturePublicKey := signaturePublicKey, credential := credential }

def decodeExternalSenders : Decoder (List ExternalSender) := decodeVarLenType decodeExternalSender

def validateExternalSenders (extensions : List Extension) (authService : AuthenticationService) :
    Except MlsError (Option MlsError) :=
  match findExtension extensions .external_senders with
  | none => pure none
  | some externalSendersExtension => do
    let decoded ← decodeExternalSenders externalSendersExtension.extensionData 0
    match decoded with
    | none => pure (some (codecError "Could not decode external_senders"))
    | some (externalSenders, _) =>
      firstError (fun externalSender => do
        let validCredential ← authService.validateCredential externalSender.credential
          externalSender.signaturePublicKey none
        if validCredential then pure none
        else pure (some (validationError "Could not validate external credential"))) externalSenders

end WebcryptoMls
