import WebcryptoMls.TreeHash

/-!
# Parent hashes

A parent hash binds a node to its nearest non-blank ancestor: the ancestor's
key, the ancestor's own parent hash, and the tree hash of the ancestor's other
child without the leaves the ancestor lists as unmerged.
-/
namespace WebcryptoMls

structure ParentHashInput where
  encryptionKey : Bytes
  parentHash : Bytes
  originalSiblingTreeHash : Bytes

def encodeParentHashInput : Encoder ParentHashInput := contramapEncoders [
  contramapEncoder encodeVarLenData ParentHashInput.encryptionKey,
  contramapEncoder encodeVarLenData ParentHashInput.parentHash,
  contramapEncoder encodeVarLenData ParentHashInput.originalSiblingTreeHash]

def sameNodeIndexSet (a b : List ℤ) : Bool :=
  if a.length ≠ b.length then false else b.all fun n => a.contains n

def satisfiesResolutionCriterion (tree : RatchetTree) (d p c : ℤ) : Except MlsError Bool :=
  match nodeAt tree p with
  | some (.parent parentNode) => do
    let resolutionOfC ← resolution tree c
    if !resolutionOfC.contains d then pure false
    else
      let (lo, hi) ← leafRange c
      let unmergedUnderC := (parentNode.unmergedLeaves.filter
        fun leafIndex => lo ≤ leafIndex && leafIndex ≤ hi).map leafToNodeIndex
      let resolutionOfCWithoutD := resolutionOfC.filter fun n => n ≠ d
      pure (sameNodeIndexSet unmergedUnderC resolutionOfCWithoutD)
  | _ => pure false

def getParentHash : Node → Option Bytes
  | .parent parent => some parent.parentHash
  | .leaf leaf => leaf.info.parentHash

/-- The child of an ancestor on the other side of a node. -/
def siblingBelow (nodeIndex parentNodeIndex : ℤ) : Except MlsError ℤ :=
  if nodeIndex < parentNodeIndex then right parentNodeIndex else left parentNodeIndex

/-- The child of an ancestor on a node's own side. -/
def childTowards (nodeIndex parentNodeIndex : ℤ) : Except MlsError ℤ :=
  if nodeIndex < parentNodeIndex then left parentNodeIndex else right parentNodeIndex

/-- The tree the original sibling is hashed in. With no unmerged leaves the
sibling stands as it was. -/
def originalTree (tree : RatchetTree) (unmerged : List ℕ) : Except MlsError RatchetTree :=
  if unmerged.length = 0 then pure tree else removeLeaves tree unmerged

/-- The parent hash of a node with the index of the ancestor it binds, or no
index at the root. -/
def calculateParentHash (tree : RatchetTree) (nodeIndex : ℤ) (h : Hash) :
    Except MlsError (Bytes × Option ℤ) := do
  let rootIndex := root (leafWidth tree.length)
  if nodeIndex = rootIndex then pure ([], none)
  else
    let parentNodeIndex ← findFirstNonBlankAncestor tree nodeIndex
    let parentNode := nodeAt tree parentNodeIndex
    if parentNodeIndex = rootIndex ∧ parentNode = none then pure ([], some parentNodeIndex)
    else
      let siblingIndex ← siblingBelow nodeIndex parentNodeIndex
      match parentNode with
      | some (.parent parentNode) =>
        let original ← originalTree tree parentNode.unmergedLeaves
        let originalSiblingTreeHash ← treeHash original siblingIndex h
        let input ← encodeParentHashInput {
          encryptionKey := parentNode.hpkePublicKey
          parentHash := parentNode.parentHash
          originalSiblingTreeHash := originalSiblingTreeHash }
        pure (h.digest input, some parentNodeIndex)
      | _ => throw (internalError "Expected non-blank parent Node")

/-- `Map<number, number>`, read with a default of 0. -/
abbrev Coverage := ℤ → ℕ

def Coverage.increment (coverage : Coverage) (n : ℤ) : Coverage :=
  fun m => if m = n then coverage m + 1 else coverage m

/-- The climb of `parentHashCoverage` from one leaf. Each round moves to a
proper ancestor. -/
def coverageLoop (tree : RatchetTree) (h : Hash) (rootIndex : ℤ) :
    ℕ → ℤ → Coverage → Except MlsError Coverage
  | 0, _, _ => throw (nonTermination "parentHashCoverage")
  | fuel + 1, currentIndex, coverage =>
    if currentIndex = rootIndex then pure coverage
    else match nodeAt tree currentIndex with
      | none => do
        let currentIndex ← findFirstNonBlankAncestor tree currentIndex
        coverageLoop tree h rootIndex fuel currentIndex coverage
      | some currentNode => do
        let (parentHash, parentHashNodeIndex) ← calculateParentHash tree currentIndex h
        match parentHashNodeIndex with
        | none =>
          throw (internalError "Reached root before completing parent hash coeverage")
        | some parentHashNodeIndex =>
          let cIndex ← childTowards currentIndex parentHashNodeIndex
          match getParentHash currentNode with
          | none => pure coverage
          | some expectedParentHash =>
            if constantTimeEqual parentHash expectedParentHash then do
              let criterion ←
                satisfiesResolutionCriterion tree currentIndex parentHashNodeIndex cIndex
              if criterion then
                coverageLoop tree h rootIndex fuel parentHashNodeIndex
                  (coverage.increment parentHashNodeIndex)
              else pure coverage
            else pure coverage

def parentHashCoverage (tree : RatchetTree) (h : Hash) : Except MlsError Coverage :=
  let rootIndex := root (leafWidth tree.length)
  tree.zipIdx.foldlM (fun coverage (node, index) =>
    if node.isNone || !isLeaf index then pure coverage
    else coverageLoop tree h rootIndex 33 index coverage) fun _ => 0

def verifyParentHashes (tree : RatchetTree) (h : Hash) : Except MlsError Bool :=
  let parentNodes := tree.zipIdx.filterMap fun (node, index) =>
    match node with
    | some (.parent _) => some (index : ℤ)
    | _ => none
  if parentNodes.length = 0 then pure true
  else do
    let coverage ← parentHashCoverage tree h
    pure (parentNodes.all fun index => coverage index == 1)

end WebcryptoMls
