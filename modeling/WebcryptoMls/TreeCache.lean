import WebcryptoMls.HiddenState
import WebcryptoMls.UpdatePath

/-!
# The cache of tree hashes

Trees as arrays with an identity, and beside each array the subtree hashes that were
computed for it. A hash that is cached is not computed again, and an operation that derives
a tree from another seeds the new tree's cache with the hashes it does not change.
-/
namespace WebcryptoMls
namespace TreeCache
open HiddenState

/-! ## The heap -/

/-- A tree array, by reference. -/
abbrev TreeRef := ℕ

/-- `(Uint8Array | undefined)[]`, by node index. -/
abbrev Hashes := ℤ → Option Bytes

def Hashes.set (hashes : Hashes) (nodeIndex : ℤ) (hash : Option Bytes) : Hashes :=
  fun n => if n = nodeIndex then hash else hashes n

/-- What `treeHashes` holds for a tree. The hash function is a reference too. -/
structure Entry where
  h : ℕ
  hashes : Hashes

structure TreeHeap where
  arrays : List RatchetTree
  treeHashes : TreeRef → Option Entry

abbrev HeapM (α : Type) := Stateful TreeHeap MlsError α

def TreeHeap.tree (heap : TreeHeap) (ref : TreeRef) : RatchetTree := heap.arrays.getD ref []

def TreeHeap.withEntry (heap : TreeHeap) (ref : TreeRef) (entry : Entry) : TreeHeap :=
  { heap with treeHashes := fun r => if r = ref then some entry else heap.treeHashes r }

def TreeHeap.withTree (heap : TreeHeap) (ref : TreeRef) (tree : RatchetTree) : TreeHeap :=
  { heap with arrays := heap.arrays.set ref tree }

/-- An array that nothing is cached for. -/
def TreeHeap.withNew (heap : TreeHeap) (tree : RatchetTree) : TreeHeap where
  arrays := heap.arrays ++ [tree]
  treeHashes := fun r => if r = heap.arrays.length then none else heap.treeHashes r

def readTree (ref : TreeRef) : HeapM RatchetTree := do
  let heap ← get
  pure (heap.tree ref)

def newTree (tree : RatchetTree) : HeapM TreeRef := do
  let heap ← get
  set (heap.withNew tree)
  pure heap.arrays.length

def writeTree (ref : TreeRef) (tree : RatchetTree) : HeapM PUnit :=
  modify fun heap => heap.withTree ref tree

/-! ## Hashing -/

/-- The hashes that are kept with `h`, or none. -/
def TreeHeap.hashesOf (heap : TreeHeap) (ref : TreeRef) (h : ℕ) : Hashes :=
  match heap.treeHashes ref with
  | some entry => if entry.h = h then entry.hashes else fun _ => none
  | none => fun _ => none

/-- A hash that is not kept yet is computed and kept. -/
def keepHash (subtreeIndex : ℤ) (compute : Stateful Hashes MlsError Bytes) :
    Stateful Hashes MlsError Bytes := do
  let cache ← get
  match cache subtreeIndex with
  | some cached => pure cached
  | none => do
    let hash ← compute
    modify fun cache => cache.set subtreeIndex (some hash)
    pure hash

/-- `subtreeHash`, which reads and fills the cache. -/
def subtreeHash (tree : RatchetTree) (h : Hash) : ℕ → ℤ → Stateful Hashes MlsError Bytes
  | 0, _ => throw (nonTermination "subtreeHash")
  | fuel + 1, subtreeIndex => keepHash subtreeIndex <|
    if isLeaf subtreeIndex then do
      let leafNode ← plain (leafInPlace (nodeAt tree subtreeIndex))
      let leafIndex ← plain (nodeToLeafIndex subtreeIndex)
      let input ← plain (encodeLeafNodeHashInput { leafIndex := leafIndex, leafNode := leafNode })
      pure (h.digest input)
    else do
      let parentNode ← plain (parentInPlace (nodeAt tree subtreeIndex))
      let l ← plain (left subtreeIndex)
      let leftHash ← subtreeHash tree h fuel l
      let r ← plain (right subtreeIndex)
      let rightHash ← subtreeHash tree h fuel r
      let input ← plain (encodeParentNodeHashInput
        { parentNode := parentNode, leftHash := leftHash, rightHash := rightHash })
      pure (h.digest input)

section
variable (suiteOf : ℕ → CiphersuiteImpl)

def treeHash (ref : TreeRef) (subtreeIndex : ℤ) (h : ℕ) : HeapM Bytes := do
  let heap ← get
  let (hash, hashes) := exec (subtreeHash (heap.tree ref) (suiteOf h).hash 33 subtreeIndex)
    (heap.hashesOf ref h)
  set (heap.withEntry ref { h := h, hashes := hashes })
  plain hash

def treeHashRoot (ref : TreeRef) (h : ℕ) : HeapM Bytes := do
  let tree ← readTree ref
  treeHash suiteOf ref (rootFromNodeWidth tree.length) h

/-! ## Deriving a tree -/

/-- A leaf and its direct path are dropped. -/
def dropPath (hashes : Hashes) (width : ℚ) (leaf : ℕ) : Except MlsError Hashes := do
  let leafNode := leafToNodeIndex leaf
  let path ← directPath leafNode width
  pure (path.foldl (fun hashes nodeIndex => hashes.set nodeIndex none) (hashes.set leafNode none))

def carryTreeHashes (oldTree newTree : TreeRef) (changedLeaves : List ℕ) : HeapM PUnit := do
  let heap ← get
  match heap.treeHashes oldTree with
  | none => pure ⟨⟩
  | some entry =>
    if (heap.tree oldTree).length ≠ (heap.tree newTree).length then pure ⟨⟩
    else do
      let hashes ← plain (changedLeaves.foldlM
        (fun hashes leaf => dropPath hashes (leafWidth (heap.tree newTree).length) leaf)
        entry.hashes)
      set (heap.withEntry newTree { h := entry.h, hashes := hashes })

/-- A tree that is extended starts cold. -/
def addLeafNode (ref : TreeRef) (leafNode : LeafNode) : HeapM (TreeRef × ℤ) := do
  let tree ← readTree ref
  let (copy, nodeIndex) ← plain (WebcryptoMls.addLeafNode tree leafNode)
  let newRef ← newTree copy
  match findBlankLeafNodeIndex tree with
  | none => pure (newRef, nodeIndex)
  | some blankLeaf => do
    let insertedLeafIndex ← plain (nodeToLeafIndex blankLeaf)
    carryTreeHashes ref newRef [insertedLeafIndex]
    pure (newRef, nodeIndex)

def updateLeafNode (ref : TreeRef) (leafNode : LeafNode) (leafIndex : ℕ) : HeapM TreeRef := do
  let tree ← readTree ref
  let copy ← plain (WebcryptoMls.updateLeafNode tree leafNode leafIndex)
  let newRef ← newTree copy
  carryTreeHashes ref newRef [leafIndex]
  pure newRef

def removeLeafNode (ref : TreeRef) (removedLeafIndex : ℕ) : HeapM TreeRef := do
  let tree ← readTree ref
  let condensed ← plain (WebcryptoMls.removeLeafNode tree removedLeafIndex)
  let newRef ← newTree condensed
  carryTreeHashes ref newRef [removedLeafIndex]
  pure newRef

/-! ## Parent hashes -/

/-- The tree the original sibling is hashed in: the tree itself, or an array of its own. -/
def originalTree (ref : TreeRef) (unmerged : List ℕ) : HeapM TreeRef :=
  if unmerged.length = 0 then pure ref
  else do
    let tree ← readTree ref
    let original ← plain (removeLeaves tree unmerged)
    newTree original

def calculateParentHash (ref : TreeRef) (nodeIndex : ℤ) (h : ℕ) : HeapM (Bytes × Option ℤ) := do
  let tree ← readTree ref
  let rootIndex := root (leafWidth tree.length)
  if nodeIndex = rootIndex then pure ([], none)
  else do
    let parentNodeIndex ← plain (findFirstNonBlankAncestor tree nodeIndex)
    let parentNode := nodeAt tree parentNodeIndex
    if parentNodeIndex = rootIndex ∧ parentNode = none then pure ([], some parentNodeIndex)
    else do
      let siblingIndex ← plain (siblingBelow nodeIndex parentNodeIndex)
      match parentNode with
      | some (.parent parentNode) => do
        let original ← originalTree ref parentNode.unmergedLeaves
        let originalSiblingTreeHash ← treeHash suiteOf original siblingIndex h
        let input ← plain (encodeParentHashInput {
          encryptionKey := parentNode.hpkePublicKey
          parentHash := parentNode.parentHash
          originalSiblingTreeHash := originalSiblingTreeHash })
        pure ((suiteOf h).hash.digest input, some parentNodeIndex)
      | _ => throw (internalError "Expected non-blank parent Node")

/-- The parent hashes one call of `parentHashCoverage` has computed. -/
abbrev ParentHashes := ℤ → Option (Bytes × Option ℤ)

def memoizedParentHash (ref : TreeRef) (h : ℕ) (parentHashes : ParentHashes) (nodeIndex : ℤ) :
    HeapM ((Bytes × Option ℤ) × ParentHashes) :=
  match parentHashes nodeIndex with
  | some result => pure (result, parentHashes)
  | none => do
    let result ← calculateParentHash suiteOf ref nodeIndex h
    pure (result, fun n => if n = nodeIndex then some result else parentHashes n)

def coverageLoop (ref : TreeRef) (h : ℕ) (rootIndex : ℤ) :
    ℕ → ℤ → Coverage × ParentHashes → HeapM (Coverage × ParentHashes)
  | 0, _, _ => throw (nonTermination "parentHashCoverage")
  | fuel + 1, currentIndex, (coverage, parentHashes) => do
    if currentIndex = rootIndex then pure (coverage, parentHashes)
    else do
      let tree ← readTree ref
      match nodeAt tree currentIndex with
      | none => do
        let currentIndex ← plain (findFirstNonBlankAncestor tree currentIndex)
        coverageLoop ref h rootIndex fuel currentIndex (coverage, parentHashes)
      | some currentNode => do
        let ((parentHash, parentHashNodeIndex), parentHashes) ←
          memoizedParentHash suiteOf ref h parentHashes currentIndex
        match parentHashNodeIndex with
        | none => throw (internalError "Reached root before completing parent hash coeverage")
        | some parentHashNodeIndex => do
          let cIndex ← plain (childTowards currentIndex parentHashNodeIndex)
          match getParentHash currentNode with
          | none => pure (coverage, parentHashes)
          | some expectedParentHash =>
            if constantTimeEqual parentHash expectedParentHash then do
              let criterion ← plain
                (satisfiesResolutionCriterion tree currentIndex parentHashNodeIndex cIndex)
              if criterion then
                coverageLoop ref h rootIndex fuel parentHashNodeIndex
                  (coverage.increment parentHashNodeIndex, parentHashes)
              else pure (coverage, parentHashes)
            else pure (coverage, parentHashes)

def parentHashCoverage (ref : TreeRef) (h : ℕ) : HeapM Coverage := do
  let tree ← readTree ref
  let rootIndex := root (leafWidth tree.length)
  let (coverage, _) ← tree.zipIdx.foldlM (fun state (node, index) =>
    if node.isNone || !isLeaf index then pure state
    else coverageLoop suiteOf ref h rootIndex 33 index state)
    ((fun _ => 0 : Coverage), (fun _ => none : ParentHashes))
  pure coverage

def verifyParentHashes (ref : TreeRef) (h : ℕ) : HeapM Bool := do
  let tree ← readTree ref
  let parentNodes := tree.zipIdx.filterMap fun (node, index) =>
    match node with
    | some (.parent _) => some (index : ℤ)
    | _ => none
  if parentNodes.length = 0 then pure true
  else do
    let coverage ← parentHashCoverage suiteOf ref h
    pure (parentNodes.all fun index => coverage index == 1)

/-! ## Update paths -/

def insertParentHash (h : ℕ) (ref : TreeRef) (nodeIndex : ℤ) : HeapM PUnit := do
  let (parentHash, _) ← calculateParentHash suiteOf ref nodeIndex h
  let tree ← readTree ref
  match nodeAt tree nodeIndex with
  | some (.parent currentNode) =>
    writeTree ref
      (setNode tree nodeIndex (some (.parent { currentNode with parentHash := parentHash })))
  | _ => throw (internalError "Expected non-blank parent node")

def insertParentHashes (fdp : List PathNode) (ref : TreeRef) (h : ℕ) : HeapM PUnit :=
  (fdp.reverse.map PathNode.nodeIndex).foldlM (fun _ nodeIndex =>
    insertParentHash suiteOf h ref nodeIndex) ⟨⟩

/-- The tree is returned by reference beside what the plain path holds of it. -/
def createUpdatePath (originalTree : TreeRef) (senderLeafIndex : ℕ) (groupContext : GroupContext)
    (h : ℕ) (signaturePrivateKey : (suiteOf h).signature.SignatureSecretKey) (coins : PathCoins)
    (excludeNodes : List ℤ := []) (patch : ResolvedLeafNodePatch (suiteOf h).signature := {}) :
    HeapM (TreeRef × CreatedPath (suiteOf h)) := do
  let cs := suiteOf h
  let senderNodeIndex := leafToNodeIndex senderLeafIndex
  let original ← readTree originalTree
  match nodeAt original senderNodeIndex with
  | some (.leaf originalLeafNode) => do
    let leafNodeSecret ← plain (deriveSecret coins.pathSecret "node" cs.kdf)
    let (leafPrivateKey, leafPublicKey) ← plain (cs.hpke.deriveKeyPair leafNodeSecret)
    let fdp ← plain (filteredDirectPathAndCopathResolution senderLeafIndex original)
    let fdp := fdp.map fun n =>
      { n with resolution := filterNewLeaves n.resolution excludeNodes }
    let ref ← newTree original
    carryTreeHashes originalTree ref [senderLeafIndex]
    let (tree, ps) ← plain
      (applyInitialTreeUpdate fdp coins.pathSecret senderLeafIndex original cs)
    writeTree ref tree
    insertParentHashes suiteOf fdp ref h
    let (leafParentHash, _) ← calculateParentHash suiteOf ref senderNodeIndex h
    let hpkePublicKey ← plain (cs.hpke.exportPublicKey leafPublicKey)
    let updatedLeafNodeTbs := { originalLeafNode with
      hpkePublicKey := hpkePublicKey
      extensions := patch.extensions.getD originalLeafNode.extensions
      capabilities := patch.capabilities.getD originalLeafNode.capabilities
      credential := patch.credential.getD originalLeafNode.credential
      signaturePublicKey := (patch.signature.map Prod.fst).getD originalLeafNode.signaturePublicKey }
    let updatedLeafNode ← plain (signLeafNodeCommit updatedLeafNodeTbs leafParentHash
      (.member groupContext.groupId senderLeafIndex) cs.signature coins.signature
      ((patch.signature.map Prod.snd).getD signaturePrivateKey))
    let tree ← readTree ref
    let tree := setNode tree senderNodeIndex (some (.leaf updatedLeafNode.leaf))
    writeTree ref tree
    let updatedTreeHash ← treeHashRoot suiteOf ref h
    let updatedGroupContext := { groupContext with
      treeHash := updatedTreeHash
      epoch := groupContext.epoch + 1 }
    let pathSecretsToDistribute := ps.dropLast.reverse
    let nodes ← plain (encryptSecretsForPath pathSecretsToDistribute original tree
      updatedGroupContext cs coins.encryptions)
    let pathSecrets := if pathSecretsToDistribute.length > 0 then pathSecretsToDistribute
      else ps.take 1
    pure (ref, {
      tree := tree
      updatePath := { leafNode := updatedLeafNode, nodes := nodes }
      pathSecrets := pathSecrets
      leafPrivateKey := leafPrivateKey
      treeHash := updatedTreeHash })
  | _ => throw (internalError "Expected non-blank leaf node")

def writePathNode (h : ℕ) (ref : TreeRef) (nodeIndex : ℤ) (node : UpdatePathNode) :
    HeapM PUnit := do
  let (parentHash, _) ← calculateParentHash suiteOf ref nodeIndex h
  let copy ← readTree ref
  writeTree ref (setNode copy nodeIndex (some (.parent
    { hpkePublicKey := node.hpkePublicKey, unmergedLeaves := [], parentHash := parentHash })))

def applyUpdatePath (ref : TreeRef) (senderLeafIndex : ℕ) (path : UpdatePath) (h : ℕ)
    (isExternal : Bool := false) : HeapM TreeRef := do
  let tree ← readTree ref
  plain (validateUpdatePathKeys tree senderLeafIndex path isExternal)
  let copy ← newTree tree
  carryTreeHashes ref copy [senderLeafIndex]
  writeTree copy (setNode tree (leafToNodeIndex senderLeafIndex) (some (.leaf path.leafNode.leaf)))
  let fdp ← plain (filteredDirectPath senderLeafIndex tree)
  let reverseFilteredDirectPath := fdp.reverse
  let reverseUpdatePath := path.nodes.reverse
  if reverseUpdatePath.length ≠ reverseFilteredDirectPath.length then
    throw (validationError "Invalid length of UpdatePath")
  else do
    (reverseFilteredDirectPath.zip reverseUpdatePath).foldlM (fun _ (nodeIndex, node) =>
      writePathNode suiteOf h copy nodeIndex node) ⟨⟩
    let (leafParentHash, _) ←
      calculateParentHash suiteOf copy (leafToNodeIndex senderLeafIndex) h
    if !constantTimeEqual leafParentHash path.leafNode.parentHash then
      throw (validationError "Parent hash did not match the UpdatePath")
    else pure copy

end

end TreeCache
end WebcryptoMls
