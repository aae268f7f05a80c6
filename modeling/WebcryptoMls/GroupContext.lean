import WebcryptoMls.Crypto

/-!
# Group context

What an epoch's secrets are bound to, and the labelled signature over a leaf
node that is bound to its place in a group.
-/
namespace WebcryptoMls
open PrefixCode

inductive ProtocolVersionName where
  | mls10
  deriving Repr, DecidableEq

def protocolVersions : ProtocolVersionName → ℤ
  | .mls10 => 1

def encodeProtocolVersion : Encoder ProtocolVersionName :=
  contramapEncoder encodeUint16 protocolVersions

structure GroupContext where
  version : ProtocolVersionName
  cipherSuite : CiphersuiteName
  groupId : Bytes
  epoch : ℤ
  treeHash : Bytes
  confirmedTranscriptHash : Bytes
  extensions : List Extension
  deriving Repr, DecidableEq

def encodeGroupContext : Encoder GroupContext := contramapEncoders [
  contramapEncoder encodeProtocolVersion GroupContext.version,
  contramapEncoder encodeCiphersuite GroupContext.cipherSuite,
  contramapEncoder encodeVarLenData GroupContext.groupId,
  contramapEncoder encodeUint64 GroupContext.epoch,
  contramapEncoder encodeVarLenData GroupContext.treeHash,
  contramapEncoder encodeVarLenData GroupContext.confirmedTranscriptHash,
  contramapEncoder (encodeVarLenType encodeExtension) GroupContext.extensions]

/-- A leaf of a key package belongs to no group yet. -/
inductive LeafNodeGroupInfo where
  | key_package
  | member (groupId : Bytes) (leafIndex : ℕ)

def encodeLeafNodeGroupInfo : Encoder LeafNodeGroupInfo
  | .key_package => pure []
  | .member groupId leafIndex => do
    let id ← encodeVarLenData groupId
    let index ← encodeUint32 leafIndex
    pure (id ++ index)

/-- The signed content of a leaf: every field but the signature, then `info`. -/
def encodeLeafNodeTBS (info : LeafNodeGroupInfo) : Encoder LeafNode := contramapEncoders [
  encodeLeafNodeData,
  contramapEncoder encodeLeafNodeInfo LeafNode.info,
  encodeLeafNodeExtensions,
  contramapEncoder encodeLeafNodeGroupInfo fun _ => info]

/-- `signWithLabel` over a leaf, whose own signature is not part of the content. -/
def signLeafNodeTBS (tbs : LeafNode) (info : LeafNodeGroupInfo) (sig : Signature) (coins : Bytes)
    (signaturePrivateKey : sig.SignatureSecretKey) : Except MlsError Bytes := do
  let content ← encodeLeafNodeTBS info tbs
  signWithLabel sig coins signaturePrivateKey "LeafNodeTBS" content

def signLeafNodeCommit (tbs : LeafNode) (parentHash : Bytes) (info : LeafNodeGroupInfo)
    (sig : Signature) (coins : Bytes) (signaturePrivateKey : sig.SignatureSecretKey) :
    Except MlsError LeafNodeCommit := do
  let leaf := { tbs with info := .commit parentHash }
  let signature ← signLeafNodeTBS leaf info sig coins signaturePrivateKey
  pure { leaf := { leaf with signature := signature }, parentHash := parentHash, source := rfl }

def verifyLeafNodeSignature (leaf : LeafNode) (groupId : Bytes) (leafIndex : ℕ)
    (sig : Signature) : Except MlsError Bool := do
  let info := match leaf.info with
    | .key_package _ => .key_package
    | _ => LeafNodeGroupInfo.member groupId leafIndex
  let content ← encodeLeafNodeTBS info leaf
  verifyWithLabel leaf.signaturePublicKey "LeafNodeTBS" content leaf.signature sig

theorem signLeafNodeCommit_eq_ok {tbs : LeafNode} {parentHash : Bytes} {info : LeafNodeGroupInfo}
    {sig : Signature} {coins : Bytes} {key : sig.SignatureSecretKey} {signed : LeafNodeCommit}
    (h : signLeafNodeCommit tbs parentHash info sig coins key = .ok signed) :
    ∃ signature, signed.leaf = { tbs with info := .commit parentHash, signature := signature } := by
  obtain ⟨signature, -, h⟩ := bind_eq_ok.mp h
  exact ⟨signature, congrArg LeafNodeCommit.leaf (Except.ok.inj h).symm⟩

end WebcryptoMls
