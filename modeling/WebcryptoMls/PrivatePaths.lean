import WebcryptoMls.MessageProtection

/-!
# Private paths

A member keeps the private key of its leaf and of nodes above it. From a path
secret sent to it, it derives the secrets of the committer's filtered path from
there upwards, and checks the keys they yield against those in the tree.
-/
namespace WebcryptoMls
open Records

/-- Path secrets by node index. -/
abbrev PathSecrets := Record ℤ Bytes

def pathToPathSecrets (pathSecrets : List PathSecret) : PathSecrets :=
  .ofEntries (pathSecrets.map fun cur => (cur.nodeIndex, cur.secret))

structure PathSecretsAlongPath where
  pathSecrets : PathSecrets
  lastSecret : Bytes

/-- The loop of `pathSecretsAlongFilteredPath` over the nodes above the first. -/
def secretsAbove (kdf : Kdf) : List PathNode → PathSecretsAlongPath → Except MlsError PathSecretsAlongPath
  | [], acc => pure acc
  | node :: fdp, acc => do
    let lastSecret ← deriveSecret acc.lastSecret "path" kdf
    secretsAbove kdf fdp {
      pathSecrets := acc.pathSecrets.set node.nodeIndex lastSecret
      lastSecret := lastSecret }

/-- Stops where the sender's path stopped, not at the root. -/
def pathSecretsAlongFilteredPath (tree : RatchetTree) (senderLeafIndex : ℕ) (nodeIndex : ℤ)
    (pathSecret : Bytes) (kdf : Kdf) : Except MlsError PathSecretsAlongPath := do
  let fdp ← filteredDirectPathAndCopathResolution senderLeafIndex tree
  match fdp.findIdx? fun entry => entry.nodeIndex = nodeIndex with
  | none => throw (internalError "Could not find node on filtered direct path")
  | some startIndex => secretsAbove kdf (fdp.drop (startIndex + 1)) {
      pathSecrets := Record.empty.set nodeIndex pathSecret
      lastSecret := pathSecret }

/-! ## Private keys -/

/-- The keys of the second take precedence. -/
def mergePrivateKeyPaths (a b : PrivateKeyPath) : PrivateKeyPath :=
  { a with privateKeys := a.privateKeys.setAll b.privateKeys.entries }

def updateLeafKey (path : PrivateKeyPath) (newKey : Bytes) : PrivateKeyPath :=
  { path with privateKeys := path.privateKeys.set (leafToNodeIndex path.leafIndex) newKey }

/-- Drops the keys of nodes that are blank in the tree. -/
def pruneBlankedNodes (path : PrivateKeyPath) (tree : RatchetTree) : PrivateKeyPath :=
  { path with privateKeys := path.privateKeys.filterKeys fun nodeIndex => (nodeAt tree nodeIndex).isSome }

/-- The private key of one path secret. Where the tree to verify against has the
node, its public key must be the one derived. -/
def toPrivateKey (cs : CiphersuiteImpl) (verifyAgainstTree : Option RatchetTree)
    (entry : ℤ × Bytes) : Except MlsError (ℤ × Bytes) := do
  let nodeSecret ← deriveSecret entry.2 "node" cs.kdf
  let (privateKey, publicKey) ← cs.hpke.deriveKeyPair nodeSecret
  match verifyAgainstTree.bind fun tree => nodeAt tree entry.1 with
  | none => do
    let exported ← cs.hpke.exportPrivateKey privateKey
    pure (entry.1, exported)
  | some node => do
    let derived ← cs.hpke.exportPublicKey publicKey
    if !constantTimeEqual derived (getHpkePublicKey node) then
      throw (validationError ("Derived public key does not match the public key " ++
        "advertised in the ratchet tree"))
    else do
      let exported ← cs.hpke.exportPrivateKey privateKey
      pure (entry.1, exported)

def toPrivateKeyPath (pathSecrets : PathSecrets) (leafIndex : ℕ) (cs : CiphersuiteImpl)
    (verifyAgainstTree : Option RatchetTree) : Except MlsError PrivateKeyPath := do
  let asArray ← pathSecrets.entries.mapM (toPrivateKey cs verifyAgainstTree)
  pure { leafIndex := leafIndex, privateKeys := .ofEntries asArray }

def deriveWelcomePrivateKeyPath (tree : RatchetTree) (committerLeafIndex : ℕ)
    (ancestorNodeIndex : ℤ) (pathSecret : Bytes) (privateKeyPath : PrivateKeyPath)
    (cs : CiphersuiteImpl) : Except MlsError PrivateKeyPath := do
  let along ←
    pathSecretsAlongFilteredPath tree committerLeafIndex ancestorNodeIndex pathSecret cs.kdf
  let fromPath ← toPrivateKeyPath along.pathSecrets privateKeyPath.leafIndex cs (some tree)
  pure (pruneBlankedNodes (mergePrivateKeyPaths fromPath privateKeyPath) tree)

/-! ## Receiving a path secret -/

/-- The loop over the committer's filtered path, to its first node above the leaf. -/
def firstAncestor (tree : RatchetTree) (leafIndex : ℕ) :
    List (PathNode × ℕ) → Except MlsError (PathNode × ℕ)
  | [] => throw (validationError "Could not find common ancestor")
  | entry :: fdp => do
    let found ← isAncestor (leafToNodeIndex leafIndex) entry.1.nodeIndex tree.length
    if found then pure entry else firstAncestor tree leafIndex fdp

def firstCommonAncestor (tree : RatchetTree) (leafIndex senderLeafIndex : ℕ) : Except MlsError ℤ := do
  let fdp ← filteredDirectPathAndCopathResolution senderLeafIndex tree
  let (node, _) ← firstAncestor tree leafIndex fdp.zipIdx
  pure node.nodeIndex

structure MatchAncestor where
  nodeIndex : ℤ
  resolution : List ℤ
  updateNode : Option UpdatePathNode

def firstMatchAncestor (tree : RatchetTree) (leafIndex senderLeafIndex : ℕ) (path : UpdatePath) :
    Except MlsError MatchAncestor := do
  let fdp ← filteredDirectPathAndCopathResolution senderLeafIndex tree
  let (node, n) ← firstAncestor tree leafIndex fdp.zipIdx
  pure { nodeIndex := node.nodeIndex, resolution := node.resolution, updateNode := path.nodes[n]? }

/-- The loop over the recipients, to the first whose key the member holds. -/
def decryptPathSecret (privateKeys : Record ℤ Bytes) (gc : GroupContext) (cs : CiphersuiteImpl) :
    List (ℤ × HPKECiphertext) → Except MlsError Bytes
  | [] => throw (validationError "No overlap between provided private keys and update path")
  | (nodeIndex, ct) :: recipients =>
    match privateKeys.get nodeIndex with
    | none => decryptPathSecret privateKeys gc cs recipients
    | some privateKey => do
      let key ← cs.hpke.importPrivateKey privateKey
      let context ← encodeGroupContext gc
      decryptWithLabel cs.hpke key "UpdatePathNode" context ct.kemOutput ct.ciphertext

structure ReceivedPathSecret where
  nodeIndex : ℤ
  pathSecret : Bytes

def applyUpdatePathSecret (tree : RatchetTree) (privatePath : PrivateKeyPath)
    (senderLeafIndex : ℕ) (gc : GroupContext) (path : UpdatePath) (excludeNodes : List ℤ)
    (cs : CiphersuiteImpl) : Except MlsError ReceivedPathSecret := do
  let ancestor ← firstMatchAncestor tree privatePath.leafIndex senderLeafIndex path
  match ancestor.updateNode with
  | none => throw (validationError
      "UpdatePath is missing an UpdatePathNode for the common ancestor")
  | some updateNode =>
    let filteredResolution := filterNewLeaves ancestor.resolution excludeNodes
    if updateNode.encryptedPathSecret.length ≠ filteredResolution.length then
      throw (validationError
        "UpdatePathNode encrypted_path_secret count does not match the copath resolution")
    else do
      let pathSecret ← decryptPathSecret privatePath.privateKeys gc cs
        (filteredResolution.zip updateNode.encryptedPathSecret)
      pure { nodeIndex := ancestor.nodeIndex, pathSecret := pathSecret }

end WebcryptoMls
