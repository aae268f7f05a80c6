import WebcryptoMls.RatchetTree
import WebcryptoMls.Crypto

/-!
# Tree hashes

The hash of a subtree, computed afresh from the nodes of the array. The hashes the
library keeps of subtrees it has hashed are left out.
-/
namespace WebcryptoMls
open PrefixCode

inductive NodeTypeName where
  | leaf
  | parent
  deriving Repr, DecidableEq

def nodeTypes : NodeTypeName → ℤ
  | .leaf => 1
  | .parent => 2

def encodeNodeType : Encoder NodeTypeName := contramapEncoder encodeUint8 nodeTypes

structure LeafNodeHashInput where
  leafIndex : ℕ
  leafNode : Option LeafNode

structure ParentNodeHashInput where
  parentNode : Option ParentNode
  leftHash : Bytes
  rightHash : Bytes

def encodeLeafNodeHashInput : Encoder LeafNodeHashInput := contramapEncoders [
  contramapEncoder encodeNodeType fun _ => .leaf,
  contramapEncoder (fun n : ℕ => encodeUint32 n) LeafNodeHashInput.leafIndex,
  contramapEncoder (encodeOptional encodeLeafNode) LeafNodeHashInput.leafNode]

def encodeParentNodeHashInput : Encoder ParentNodeHashInput := contramapEncoders [
  contramapEncoder encodeNodeType fun _ => .parent,
  contramapEncoder (encodeOptional encodeParentNode) ParentNodeHashInput.parentNode,
  contramapEncoder encodeVarLenData ParentNodeHashInput.leftHash,
  contramapEncoder encodeVarLenData ParentNodeHashInput.rightHash]

/-- `leafNode?.leaf`, refused where a parent node stands in a leaf's place. -/
def leafInPlace : Option Node → Except MlsError (Option LeafNode)
  | some (.parent _) => throw (internalError "Somehow found parent node in leaf position")
  | some (.leaf leaf) => pure (some leaf)
  | none => pure none

/-- `parentNode?.parent`, refused where a leaf stands in a parent's place. -/
def parentInPlace : Option Node → Except MlsError (Option ParentNode)
  | some (.leaf _) => throw (internalError "Somehow found leaf node in parent position")
  | some (.parent parent) => pure (some parent)
  | none => pure none

/-- `subtreeHash` on a tree with no cached hashes. -/
def subtreeHash (tree : RatchetTree) (h : Hash) : ℕ → ℤ → Except MlsError Bytes
  | 0, _ => throw (nonTermination "subtreeHash")
  | fuel + 1, subtreeIndex =>
    if isLeaf subtreeIndex then do
      let leafNode ← leafInPlace (nodeAt tree subtreeIndex)
      let leafIndex ← nodeToLeafIndex subtreeIndex
      let input ← encodeLeafNodeHashInput { leafIndex := leafIndex, leafNode := leafNode }
      pure (h.digest input)
    else do
      let parentNode ← parentInPlace (nodeAt tree subtreeIndex)
      let l ← left subtreeIndex
      let leftHash ← subtreeHash tree h fuel l
      let r ← right subtreeIndex
      let rightHash ← subtreeHash tree h fuel r
      let input ← encodeParentNodeHashInput
        { parentNode := parentNode, leftHash := leftHash, rightHash := rightHash }
      pure (h.digest input)

def treeHash (tree : RatchetTree) (subtreeIndex : ℤ) (h : Hash) : Except MlsError Bytes :=
  subtreeHash tree h 33 subtreeIndex

def treeHashRoot (tree : RatchetTree) (h : Hash) : Except MlsError Bytes :=
  treeHash tree (rootFromNodeWidth tree.length) h

end WebcryptoMls
