import WebcryptoMls.LeafValidation
import WebcryptoMls.LeafNodeDecoders
import WebcryptoMls.UnmergedLeaves

/-!
# Validation of a received tree

A tree arrives as the nodes up to its last non-blank one and is widened when it is
decoded. A joiner then checks its structure, its parent hashes, its tree hash, the
unmerged leaves of its parents and every leaf, in this order.
-/
namespace WebcryptoMls
open PrefixCode

/-! ## Decoding -/

def decodeNodeType : Decoder NodeTypeName :=
  mapDecoderOption decodeUint8 (enumNumberToKey [.leaf, .parent] nodeTypes)

def decodeParentNode : Decoder ParentNode := do
  let hpkePublicKey ← decodeVarLenData
  let parentHash ← decodeVarLenData
  let unmergedLeaves ← decodeVarLenType (mapDecoder decodeUint32 Int.toNat)
  pure { hpkePublicKey := hpkePublicKey, parentHash := parentHash, unmergedLeaves := unmergedLeaves }

def decodeNode : Decoder Node :=
  flatMapDecoder decodeNodeType fun nodeType => match nodeType with
    | .parent => mapDecoder decodeParentNode .parent
    | .leaf => mapDecoder decodeLeafNode .leaf

/-- The leaf indices of a parent are inside the tree. -/
def nodeInRange (width : ℚ) : Option Node → Bool
  | some (.parent parent) => parent.unmergedLeaves.all fun leafIndex => leafIndex < width
  | _ => true

def unmergedLeavesInRange (tree : RatchetTree) : Bool :=
  tree.all (nodeInRange (leafWidth tree.length))

/-- The tree that was sent as `nodes`. A blank last node, or none, is malformed. -/
def treeOfNodes (nodes : RatchetTree) : Except MlsError (Option RatchetTree) :=
  if nodeAt nodes (nodes.length - 1) = none then pure none
  else do
    let tree ← extendRatchetTree nodes
    if unmergedLeavesInRange tree then pure (some tree) else pure none

def decodeRatchetTree : Decoder RatchetTree := fun b offset =>
  match decodeVarLenType (decodeOptional decodeNode) b offset with
  | .error e => .error e
  | .ok none => .ok none
  | .ok (some (nodes, len)) => do
    let tree ← treeOfNodes nodes
    pure (tree.map fun t => (t, len))

/-! ## Trees -/

/-- Leaves at the even places, parents at the odd. -/
def soundAt : Option Node × ℕ → Bool
  | (none, _) => true
  | (some (.leaf _), index) => isLeaf index
  | (some (.parent _), index) => !isLeaf index

def treeIsStructurallySound (tree : RatchetTree) : Bool := tree.zipIdx.all soundAt

def hasDuplicateUint8Arrays (byteArrays : List (Option Bytes)) : Bool :=
  !decide (byteArrays.filterMap id).Nodup

/-- The round of `validateRatchetTree` for one leaf. -/
def validateLeafAt (tree : RatchetTree) (groupContext : GroupContext) (config : LifetimeConfig)
    (authService : AuthenticationService) (cs : CiphersuiteImpl) (leaves : LeafSummary)
    (currentTime : ℤ) : Option Node × ℕ → Except MlsError (Option MlsError)
  | (some (.leaf leaf), index) => do
    let leafIndex ← nodeToLeafIndex index
    match leaf.info with
    | .key_package _ =>
      validateLeafNodeKeyPackage leaf groupContext tree false config authService (some leafIndex)
        cs.signature cs.hpke leaves currentTime
    | _ =>
      validateLeafNodeUpdateOrCommit leaf leafIndex groupContext tree authService cs.signature
        cs.hpke (credentialAtLeaf tree leafIndex) leaves
  | _ => pure none

/-- The checks behind the hashes. -/
def validateNodes (tree : RatchetTree) (groupContext : GroupContext) (config : LifetimeConfig)
    (authService : AuthenticationService) (cs : CiphersuiteImpl) (currentTime : ℤ) :
    Except MlsError (Option MlsError) := do
  let unmergedError ← validateUnmergedLeaves tree
  match unmergedError with
  | some e => pure (some e)
  | none =>
    if hasDuplicateUint8Arrays (tree.map (Option.map getHpkePublicKey)) then
      pure (some (validationError "Multiple public keys with the same value"))
    else
      let leaves := summarizeLeaves tree
      firstError (validateLeafAt tree groupContext config authService cs leaves currentTime)
        tree.zipIdx

def validateRatchetTree (tree : RatchetTree) (groupContext : GroupContext)
    (config : LifetimeConfig) (authService : AuthenticationService) (treeHash : Bytes)
    (cs : CiphersuiteImpl) (currentTime : ℤ) : Except MlsError (Option MlsError) :=
  if !treeIsStructurallySound tree then
    pure (some (validationError "Received Ratchet Tree is not structurally sound"))
  else do
    let parentHashesVerified ← verifyParentHashes tree cs.hash
    if !parentHashesVerified then
      pure (some (cryptoVerificationError "Unable to verify parent hash"))
    else do
      let computedTreeHash ← treeHashRoot tree cs.hash
      if !constantTimeEqual treeHash computedTreeHash then
        pure (some (validationError "Unable to verify tree hash"))
      else validateNodes tree groupContext config authService cs currentTime

end WebcryptoMls
