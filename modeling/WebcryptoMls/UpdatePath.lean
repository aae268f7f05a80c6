import WebcryptoMls.ParentHash
import WebcryptoMls.GroupContext

/-!
# Update paths

A committer draws one path secret, derives a chain of secrets from it along its
filtered direct path, and writes the keys they yield into a copy of the tree,
then the parent hashes, root first. A receiver writes the keys it was sent into
the same places and recomputes the hashes.
-/
namespace WebcryptoMls

structure HPKECiphertext where
  kemOutput : Bytes
  ciphertext : Bytes
  deriving Repr, DecidableEq

structure UpdatePathNode where
  hpkePublicKey : Bytes
  encryptedPathSecret : List HPKECiphertext
  deriving Repr, DecidableEq

structure UpdatePath where
  leafNode : LeafNodeCommit
  nodes : List UpdatePathNode
  deriving Repr, DecidableEq

structure PathSecret where
  nodeIndex : ℤ
  secret : Bytes
  sendTo : List ℤ
  deriving Repr, DecidableEq

/-- Changes to the committer's own leaf; a field left out keeps its value. -/
structure ResolvedLeafNodePatch (sig : Signature) where
  credential : Option Credential := none
  signature : Option (Bytes × sig.SignatureSecretKey) := none
  capabilities : Option Capabilities := none
  extensions : Option (List Extension) := none

/-- The random bytes one path draws. -/
structure PathCoins where
  pathSecret : Bytes
  signature : Bytes
  encryptions : ℕ → Bytes

def filterNewLeaves (resolution excludeNodes : List ℤ) : List ℤ :=
  resolution.filter fun i => !excludeNodes.contains i

/-- `pathSecrets[0]!.secret` -/
def lastPathSecret : List PathSecret → Except MlsError Bytes
  | p :: _ => pure p.secret
  | [] => throw (typeError "pathSecrets[0] is undefined")

/-- The round of `applyInitialTreeUpdate` for one node of the path. The secrets
stand root first, so the last one derived is the head. -/
def initialTreeUpdateStep (cs : CiphersuiteImpl) (state : RatchetTree × List PathSecret)
    (node : PathNode) : Except MlsError (RatchetTree × List PathSecret) := do
  let (tree, pathSecrets) := state
  let secret ← lastPathSecret pathSecrets
  let nextPathSecret ← deriveSecret secret "path" cs.kdf
  let nextNodeSecret ← deriveSecret nextPathSecret "node" cs.kdf
  let (_, publicKey) ← cs.hpke.deriveKeyPair nextNodeSecret
  let hpkePublicKey ← cs.hpke.exportPublicKey publicKey
  pure (setNode tree node.nodeIndex (some (.parent
      { hpkePublicKey := hpkePublicKey, parentHash := [], unmergedLeaves := [] })),
    { nodeIndex := node.nodeIndex, secret := nextPathSecret, sendTo := node.resolution } ::
      pathSecrets)

def applyInitialTreeUpdate (fdp : List PathNode) (pathSecret : Bytes) (senderLeafIndex : ℕ)
    (tree : RatchetTree) (cs : CiphersuiteImpl) :
    Except MlsError (RatchetTree × List PathSecret) :=
  fdp.foldlM (initialTreeUpdateStep cs)
    (tree, [{ nodeIndex := leafToNodeIndex senderLeafIndex, secret := pathSecret, sendTo := [] }])

/-- The round of `insertParentHashes` for one node of the path. -/
def insertParentHash (h : Hash) (tree : RatchetTree) (nodeIndex : ℤ) :
    Except MlsError RatchetTree := do
  let (parentHash, _) ← calculateParentHash tree nodeIndex h
  match nodeAt tree nodeIndex with
  | some (.parent currentNode) =>
    pure (setNode tree nodeIndex (some (.parent { currentNode with parentHash := parentHash })))
  | _ => throw (internalError "Expected non-blank parent node")

def insertParentHashes (fdp : List PathNode) (tree : RatchetTree) (h : Hash) :
    Except MlsError RatchetTree :=
  (fdp.reverse.map PathNode.nodeIndex).foldlM (insertParentHash h) tree

/-- A secret and the key it is encrypted to. -/
structure EncryptionJob where
  secret : Bytes
  recipientKey : Bytes

/-- `getHpkePublicKey(tree[nodeIndex]!)` -/
def publicKeyAt (tree : RatchetTree) (nodeIndex : ℤ) : Except MlsError Bytes :=
  match nodeAt tree nodeIndex with
  | some node => pure (getHpkePublicKey node)
  | none => throw (typeError "tree[nodeIndex] is undefined")

def encryptionJobs (originalTree : RatchetTree) (pathSecret : PathSecret) :
    Except MlsError (List EncryptionJob) :=
  pathSecret.sendTo.mapM fun nodeIndex => do
    let recipientKey ← publicKeyAt originalTree nodeIndex
    pure { secret := pathSecret.secret, recipientKey := recipientKey }

def encryptJob (cs : CiphersuiteImpl) (context : Bytes) (coins : Bytes) (job : EncryptionJob) :
    Except MlsError HPKECiphertext := do
  let key ← cs.hpke.importPublicKey job.recipientKey
  let sealed ← encryptWithLabel cs.hpke coins key "UpdatePathNode" context job.secret
  pure { ciphertext := sealed.ct, kemOutput := sealed.enc }

/-- Cuts the ciphertexts back into one run for each path secret. -/
def updatePathNodes (updatedTree : RatchetTree) :
    List PathSecret → List HPKECiphertext → Except MlsError (List UpdatePathNode)
  | [], _ => pure []
  | pathSecret :: pathSecrets, ciphertexts => do
    let count := pathSecret.sendTo.length
    let hpkePublicKey ← publicKeyAt updatedTree pathSecret.nodeIndex
    let nodes ← updatePathNodes updatedTree pathSecrets (ciphertexts.drop count)
    pure ({ hpkePublicKey := hpkePublicKey,
            encryptedPathSecret := ciphertexts.take count } :: nodes)

/-- The batches of the source bound how many encryptions run at once; the
ciphertexts come out in the order of the jobs. -/
def encryptSecretsForPath (pathSecrets : List PathSecret) (originalTree updatedTree : RatchetTree)
    (updatedGroupContext : GroupContext) (cs : CiphersuiteImpl) (coins : ℕ → Bytes) :
    Except MlsError (List UpdatePathNode) := do
  let context ← encodeGroupContext updatedGroupContext
  let jobs ← pathSecrets.mapM (encryptionJobs originalTree)
  let ciphertexts ← jobs.flatten.zipIdx.mapM fun (job, i) => encryptJob cs context (coins i) job
  updatePathNodes updatedTree pathSecrets ciphertexts

/-- What `createUpdatePath` returns. -/
structure CreatedPath (cs : CiphersuiteImpl) where
  tree : RatchetTree
  updatePath : UpdatePath
  pathSecrets : List PathSecret
  leafPrivateKey : cs.hpke.PrivateKey
  treeHash : Bytes

def createUpdatePath (originalTree : RatchetTree) (senderLeafIndex : ℕ)
    (groupContext : GroupContext) (cs : CiphersuiteImpl)
    (signaturePrivateKey : cs.signature.SignatureSecretKey) (coins : PathCoins)
    (excludeNodes : List ℤ := []) (patch : ResolvedLeafNodePatch cs.signature := {}) :
    Except MlsError (CreatedPath cs) := do
  let senderNodeIndex := leafToNodeIndex senderLeafIndex
  match nodeAt originalTree senderNodeIndex with
  | some (.leaf originalLeafNode) =>
    let leafNodeSecret ← deriveSecret coins.pathSecret "node" cs.kdf
    let (leafPrivateKey, leafPublicKey) ← cs.hpke.deriveKeyPair leafNodeSecret
    let fdp ← filteredDirectPathAndCopathResolution senderLeafIndex originalTree
    let fdp := fdp.map fun n =>
      { n with resolution := filterNewLeaves n.resolution excludeNodes }
    let (tree, ps) ←
      applyInitialTreeUpdate fdp coins.pathSecret senderLeafIndex originalTree cs
    let tree ← insertParentHashes fdp tree cs.hash
    let (leafParentHash, _) ← calculateParentHash tree senderNodeIndex cs.hash
    let hpkePublicKey ← cs.hpke.exportPublicKey leafPublicKey
    let updatedLeafNodeTbs := { originalLeafNode with
      hpkePublicKey := hpkePublicKey
      extensions := patch.extensions.getD originalLeafNode.extensions
      capabilities := patch.capabilities.getD originalLeafNode.capabilities
      credential := patch.credential.getD originalLeafNode.credential
      signaturePublicKey := (patch.signature.map Prod.fst).getD originalLeafNode.signaturePublicKey }
    let updatedLeafNode ← signLeafNodeCommit updatedLeafNodeTbs leafParentHash
      (.member groupContext.groupId senderLeafIndex) cs.signature coins.signature
      ((patch.signature.map Prod.snd).getD signaturePrivateKey)
    let tree := setNode tree senderNodeIndex (some (.leaf updatedLeafNode.leaf))
    let updatedTreeHash ← treeHashRoot tree cs.hash
    let updatedGroupContext := { groupContext with
      treeHash := updatedTreeHash
      epoch := groupContext.epoch + 1 }
    let pathSecretsToDistribute := ps.dropLast.reverse
    let nodes ← encryptSecretsForPath pathSecretsToDistribute originalTree tree
      updatedGroupContext cs coins.encryptions
    let pathSecrets := if pathSecretsToDistribute.length > 0 then pathSecretsToDistribute
      else ps.take 1
    pure {
      tree := tree
      updatePath := { leafNode := updatedLeafNode, nodes := nodes }
      pathSecrets := pathSecrets
      leafPrivateKey := leafPrivateKey
      treeHash := updatedTreeHash }
  | _ => throw (internalError "Expected non-blank leaf node")

/-- Some node of the tree carries the key. -/
def keyInTree (tree : RatchetTree) (key : Bytes) : Bool :=
  tree.any fun treeNode =>
    match treeNode with
    | none => false
    | some node => constantTimeEqual (getHpkePublicKey node) key

/-- Two positions of the path carry one key. -/
def hasDuplicateKeyWithinPath (nodes : List UpdatePathNode) : Bool :=
  nodes.zipIdx.any fun (node, i) => nodes.zipIdx.any fun (other, j) =>
    i != j && constantTimeEqual node.hpkePublicKey other.hpkePublicKey

/-- The checks of `applyUpdatePath` on the keys the path carries. -/
def validateUpdatePathKeys (tree : RatchetTree) (senderLeafIndex : ℕ) (path : UpdatePath)
    (isExternal : Bool) : Except MlsError Unit := do
  if !isExternal then
    match nodeAt tree (leafToNodeIndex senderLeafIndex) with
    | some (.leaf leafToUpdate) =>
      if constantTimeEqual leafToUpdate.hpkePublicKey path.leafNode.leaf.hpkePublicKey then
        throw (validationError
          "Public key in the LeafNode is the same as the committer's current leaf node")
    | _ => throw (internalError "Leaf node not defined or is parent")
  if path.nodes.any fun node => keyInTree tree node.hpkePublicKey then
    throw (validationError
      "Public keys in the UpdatePath may not appear in a node of the new ratchet tree")
  if hasDuplicateKeyWithinPath path.nodes then
    throw (validationError "Public keys in the UpdatePath must be distinct from each other")
  if path.nodes.any fun node => constantTimeEqual node.hpkePublicKey path.leafNode.leaf.hpkePublicKey then
    throw (validationError "LeafNode public key may not appear in the UpdatePath")

/-- The round of `applyUpdatePath` that writes one key and its parent hash. -/
def writePathNode (h : Hash) (copy : RatchetTree) (nodeIndex : ℤ) (node : UpdatePathNode) :
    Except MlsError RatchetTree := do
  let (parentHash, _) ← calculateParentHash copy nodeIndex h
  pure (setNode copy nodeIndex (some (.parent
    { hpkePublicKey := node.hpkePublicKey, unmergedLeaves := [], parentHash := parentHash })))

def applyUpdatePath (tree : RatchetTree) (senderLeafIndex : ℕ) (path : UpdatePath) (h : Hash)
    (isExternal : Bool := false) : Except MlsError RatchetTree := do
  validateUpdatePathKeys tree senderLeafIndex path isExternal
  let copy := setNode tree (leafToNodeIndex senderLeafIndex) (some (.leaf path.leafNode.leaf))
  let fdp ← filteredDirectPath senderLeafIndex tree
  let reverseFilteredDirectPath := fdp.reverse
  let reverseUpdatePath := path.nodes.reverse
  if reverseUpdatePath.length ≠ reverseFilteredDirectPath.length then
    throw (validationError "Invalid length of UpdatePath")
  let copy ← (reverseFilteredDirectPath.zip reverseUpdatePath).foldlM
    (fun copy (nodeIndex, node) => writePathNode h copy nodeIndex node) copy
  let (leafParentHash, _) ← calculateParentHash copy (leafToNodeIndex senderLeafIndex) h
  if !constantTimeEqual leafParentHash path.leafNode.parentHash then
    throw (validationError "Parent hash did not match the UpdatePath")
  pure copy

end WebcryptoMls
