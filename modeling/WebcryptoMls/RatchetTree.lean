import Mathlib.Data.List.DropRight
import WebcryptoMls.Treemath
import WebcryptoMls.LeafNode

/-!
# The ratchet tree

The tree is the in-order array of its nodes, blank where no node is. A read
outside the array finds no node. The operations copy the array and write the
copy; the hash cache they carry along is left out.
-/
namespace WebcryptoMls

inductive Node where
  | parent (parent : ParentNode)
  | leaf (leaf : LeafNode)
  deriving Repr, DecidableEq

abbrev RatchetTree := List (Option Node)

/-- `tree[nodeIndex]` -/
def nodeAt (tree : RatchetTree) (nodeIndex : ℤ) : Option Node :=
  if nodeIndex < 0 then none else tree[nodeIndex.toNat]?.join

/-- `tree[nodeIndex] = node`. Every caller has an index inside the array or
throws before it returns the array. -/
def setNode (tree : RatchetTree) (nodeIndex : ℤ) (node : Option Node) : RatchetTree :=
  if nodeIndex < 0 then tree else tree.set nodeIndex.toNat node

def getHpkePublicKey : Node → Bytes
  | .parent parent => parent.hpkePublicKey
  | .leaf leaf => leaf.hpkePublicKey

/-- `while ((1 << (d + 1)) - 1 < n) d++`. Past 31 the shift count starts over,
so a count not found by then is never found. -/
def nextFullBinaryTreeSizeLoop (n : ℕ) : ℕ → ℤ → Except MlsError ℤ
  | 0, _ => throw (nonTermination "nextFullBinaryTreeSize")
  | fuel + 1, d =>
    if Signed32.shl 1 (d + 1) - 1 < n then nextFullBinaryTreeSizeLoop n fuel (d + 1)
    else pure (Signed32.shl 1 (d + 1) - 1)

/-- Compute the smallest `2 ^ (d + 1) - 1 >= n`. -/
def nextFullBinaryTreeSize (n : ℕ) : Except MlsError ℤ := nextFullBinaryTreeSizeLoop n 33 0

def extendRatchetTree (tree : RatchetTree) : Except MlsError RatchetTree := do
  let lastIndex : ℤ := tree.length - 1
  if nodeAt tree lastIndex = none then
    throw (internalError "The last node in the ratchet tree must be non-blank.")
  let neededSize ← nextFullBinaryTreeSize tree.length
  pure (tree ++ List.replicate (neededSize - tree.length).toNat none)

def stripBlankNodes (tree : RatchetTree) : RatchetTree := tree.rdropWhile Option.isNone

def findBlankLeafNodeIndex (tree : RatchetTree) : Option ℤ :=
  (tree.zipIdx.find? fun (node, nodeIndex) => node.isNone && isLeaf nodeIndex).map fun (_, i) => i

/-- The array literal, and `new Array(tree.length - 1)` in it, cannot pass the
longest array there is. -/
def extendTree (tree : RatchetTree) (leafNode : LeafNode) : Except MlsError (RatchetTree × ℤ) :=
  let insertedNodeIndex : ℤ := tree.length + 1
  if tree.length = 0 ∨ 2 * tree.length + 1 > 2 ^ 32 - 1 then
    throw (rangeError "Invalid array length")
  else
    pure (tree ++ none :: some (.leaf leafNode) :: List.replicate (tree.length - 1) none,
      insertedNodeIndex)

/-- The round of `addLeafNode` for one node of the new leaf's direct path. -/
def addUnmergedLeaf (tree : RatchetTree) (insertedLeafIndex : ℕ) (copy : RatchetTree)
    (nodeIndex : ℤ) : Except MlsError RatchetTree :=
  match nodeAt tree nodeIndex with
  | none => pure copy
  | some (.parent parent) =>
    pure (setNode copy nodeIndex (some (.parent
      { parent with unmergedLeaves := parent.unmergedLeaves ++ [insertedLeafIndex] })))
  | some (.leaf _) => throw (typeError "parentNode.parent is undefined")

def addLeafNode (tree : RatchetTree) (leafNode : LeafNode) :
    Except MlsError (RatchetTree × ℤ) :=
  match findBlankLeafNodeIndex tree with
  | none => extendTree tree leafNode
  | some blankLeaf => do
    let insertedLeafIndex ← nodeToLeafIndex blankLeaf
    let dp ← directPath blankLeaf (leafWidth tree.length)
    let copy ← dp.foldlM (addUnmergedLeaf tree insertedLeafIndex) tree
    pure (setNode copy blankLeaf (some (.leaf leafNode)), blankLeaf)

/-- The loop of `updateLeafNode` and of `removeLeafNode` over a direct path. -/
def blankPath (tree : RatchetTree) (pathToBlank : List ℤ) : RatchetTree :=
  pathToBlank.foldl (fun copy nodeIndex =>
    if nodeAt tree nodeIndex ≠ none then setNode copy nodeIndex none else copy) tree

def updateLeafNode (tree : RatchetTree) (leafNode : LeafNode) (leafIndex : ℕ) :
    Except MlsError RatchetTree := do
  let leafNodeIndex := leafToNodeIndex leafIndex
  let pathToBlank ← directPath leafNodeIndex (leafWidth tree.length)
  let copy := blankPath tree pathToBlank
  pure (setNode copy leafNodeIndex (some (.leaf leafNode)))

/-- A Remove that blanks the last non-blank node leaves nothing to condense. -/
def condenseRatchetTreeAfterRemove (tree : RatchetTree) : Except MlsError RatchetTree :=
  let stripped := stripBlankNodes tree
  if stripped.length = 0 then
    throw (validationError "Cannot remove the only remaining leaf of a group")
  else extendRatchetTree stripped

def removeLeafNode (tree : RatchetTree) (removedLeafIndex : ℕ) : Except MlsError RatchetTree := do
  let leafNodeIndex := leafToNodeIndex removedLeafIndex
  let pathToBlank ← directPath leafNodeIndex (leafWidth tree.length)
  let copy := setNode (blankPath tree pathToBlank) leafNodeIndex none
  condenseRatchetTreeAfterRemove copy

/-- `resolution`; a node's subtree is never deeper than the 32 levels `left` and
`right` accept. -/
def resolutionLoop (tree : RatchetTree) : ℕ → ℤ → Except MlsError (List ℤ)
  | 0, _ => throw (nonTermination "resolution")
  | fuel + 1, nodeIndex =>
    match nodeAt tree nodeIndex with
    | none =>
      if isLeaf nodeIndex then pure []
      else do
        let l ← left nodeIndex
        let r ← right nodeIndex
        let leftRes ← resolutionLoop tree fuel l
        let rightRes ← resolutionLoop tree fuel r
        pure (leftRes ++ rightRes)
    | some node =>
      if isLeaf nodeIndex then pure [nodeIndex]
      else
        let unmerged := match node with
          | .parent parent => parent.unmergedLeaves
          | .leaf _ => []
        pure (nodeIndex :: unmerged.map leafToNodeIndex)

def resolution (tree : RatchetTree) (nodeIndex : ℤ) : Except MlsError (List ℤ) :=
  resolutionLoop tree 33 nodeIndex

/-- A node of a filtered direct path with the resolution of its copath child. -/
structure PathNode where
  nodeIndex : ℤ
  resolution : List ℤ
  deriving Repr, DecidableEq

def filteredDirectPathAndCopathResolution (leafIndex : ℕ) (tree : RatchetTree) :
    Except MlsError (List PathNode) := do
  let leafNodeIndex := leafToNodeIndex leafIndex
  let lWidth := leafWidth tree.length
  let cp ← copath leafNodeIndex lWidth
  let dp ← directPath leafNodeIndex lWidth
  let nodes ← (dp.zip cp).mapM fun (nodeIndex, copathChild) => do
    let r ← resolution tree copathChild
    pure ({ nodeIndex := nodeIndex, resolution := r } : PathNode)
  pure (nodes.filter fun n => n.resolution.length ≠ 0)

def filteredDirectPath (leafIndex : ℕ) (tree : RatchetTree) : Except MlsError (List ℤ) := do
  let leafNodeIndex := leafToNodeIndex leafIndex
  let lWidth := leafWidth tree.length
  let cp ← copath leafNodeIndex lWidth
  let dp ← directPath leafNodeIndex lWidth
  let resolutions ← cp.mapM (resolution tree)
  pure ((dp.zip resolutions).filterMap fun (nodeIndex, r) =>
    if r.length ≠ 0 then some nodeIndex else none)

/-- The slot `removeLeaves` writes for the node found at `nodeIndex`. -/
def removeLeavesNode (removed : List ℕ) (nodeIndex : ℕ) : Option Node → Option Node
  | none => none
  | some n =>
    if isLeaf nodeIndex && removed.contains (nodeIndex / 2) then none
    else match n with
      | .parent parent => some (.parent
          { parent with unmergedLeaves := parent.unmergedLeaves.filter fun l => !removed.contains l })
      | .leaf leaf => some (.leaf leaf)

def removeLeaves (tree : RatchetTree) (leafIndices : List ℕ) : Except MlsError RatchetTree :=
  condenseRatchetTreeAfterRemove
    (tree.zipIdx.map fun (n, nodeIndex) => removeLeavesNode leafIndices nodeIndex n)

/-- The climb of `traverseToRoot`, one level a round. -/
def traverseToRootLoop {T : Type} (tree : RatchetTree) (rootIndex : ℤ)
    (f : ℤ → ParentNode → Option T) : ℕ → ℤ → Except MlsError (Option (T × ℤ))
  | 0, _ => throw (nonTermination "traverseToRoot")
  | fuel + 1, currentIndex =>
    if currentIndex = rootIndex then pure none
    else do
      let currentIndex ← parent currentIndex (leafWidth tree.length)
      match nodeAt tree currentIndex with
      | none => traverseToRootLoop tree rootIndex f fuel currentIndex
      | some (.leaf _) => throw (internalError "Expected parent node")
      | some (.parent currentNode) =>
        match f currentIndex currentNode with
        | some result => pure (some (result, currentIndex))
        | none => traverseToRootLoop tree rootIndex f fuel currentIndex

def traverseToRoot {T : Type} (tree : RatchetTree) (startIndex : ℤ)
    (f : ℤ → ParentNode → Option T) : Except MlsError (Option (T × ℤ)) :=
  traverseToRootLoop tree (root (leafWidth tree.length)) f 33 startIndex

def findFirstNonBlankAncestor (tree : RatchetTree) (nodeIndex : ℤ) : Except MlsError ℤ := do
  let found ← traverseToRoot tree nodeIndex fun nodeIndex _node => some nodeIndex
  pure (match found with
    | some (result, _) => result
    | none => root (leafWidth tree.length))

/-! ## Reads and writes by coordinate -/

open InOrder (index size)

/-- The node at a level and a position in it. -/
def slot (tree : RatchetTree) (k j : ℕ) : Option Node := nodeAt tree (coord k j)

theorem nodeAt_coord (tree : RatchetTree) (k j : ℕ) : nodeAt tree (coord k j) = slot tree k j := rfl

theorem slot_eq_getElem? (tree : RatchetTree) (k j : ℕ) :
    slot tree k j = tree[index k j]?.join := by
  rw [slot, nodeAt, if_neg (by have := coord_nonneg k j; omega), coord_toNat]

theorem slot_eq_none_of_le {tree : RatchetTree} {k j : ℕ} (h : tree.length ≤ index k j) :
    slot tree k j = none := by
  rw [slot_eq_getElem?, List.getElem?_eq_none h]
  rfl

theorem index_lt_of_slot {tree : RatchetTree} {k j : ℕ} {n : Node} (h : slot tree k j = some n) :
    index k j < tree.length := by
  by_contra hlt
  rw [slot_eq_none_of_le (by omega)] at h
  simp at h

/-- A tree is what its coordinates read. -/
theorem ext_slot {t t' : RatchetTree} (hlen : t.length = t'.length)
    (h : ∀ k j, index k j < t.length → slot t k j = slot t' k j) : t = t' := by
  apply List.ext_getElem?
  intro n
  obtain ⟨k, j, rfl⟩ := InOrder.exists_index n
  by_cases hn : index k j < t.length
  · have hs := h k j hn
    rw [slot_eq_getElem?, slot_eq_getElem?, List.getElem?_eq_getElem hn,
      List.getElem?_eq_getElem (by omega)] at hs
    simp only [Option.join_some] at hs
    rw [List.getElem?_eq_getElem hn, List.getElem?_eq_getElem (by omega), hs]
  · rw [List.getElem?_eq_none (by omega), List.getElem?_eq_none (by omega)]

@[simp] theorem length_setNode (t : RatchetTree) (n : ℤ) (v : Option Node) :
    (setNode t n v).length = t.length := by
  unfold setNode
  split_ifs <;> simp

theorem slot_setNode {t : RatchetTree} {k j : ℕ} (h : index k j < t.length) (v : Option Node)
    (k' j' : ℕ) :
    slot (setNode t (coord k j) v) k' j' = if k' = k ∧ j' = j then v else slot t k' j' := by
  rw [setNode, if_neg (by have := coord_nonneg k j; omega), coord_toNat, slot_eq_getElem?,
    slot_eq_getElem?, List.getElem?_set]
  by_cases heq : k' = k ∧ j' = j
  · obtain ⟨rfl, rfl⟩ := heq
    simp [h]
  · have hne : index k j ≠ index k' j' := fun hi => heq ⟨(InOrder.index_inj hi).1.symm,
      (InOrder.index_inj hi).2.symm⟩
    rw [if_neg hne, if_neg heq]

end WebcryptoMls
