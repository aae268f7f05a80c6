import WebcryptoMls.Joining
import WebcryptoMls.HostileTrees

/-!
# Joined trees

Node and leaf places are computed from a tree's length, which is one less than a power
of two in every tree the library builds. A tree read from a GroupInfo is widened to
such a length; one handed to a join is taken as it is, and only a resync, whose Remove
widens what it leaves, makes up for that.
-/
namespace WebcryptoMls
open InOrder (size)

/-- The length is one less than a power of two. -/
def FullWidth (tree : RatchetTree) : Prop := ∃ k, tree.length + 1 = 2 ^ k

theorem fullWidth_congr {t t' : RatchetTree} (h : t'.length = t.length) :
    FullWidth t' ↔ FullWidth t := by
  simp [FullWidth, h]

theorem fullWidth_of_size {t : RatchetTree} {d : ℕ} (h : t.length = size d) : FullWidth t :=
  ⟨d + 1, by rw [h, InOrder.size_add_one]⟩

/-- A tree grows to twice its width. -/
theorem fullWidth_double {t t' : RatchetTree} (h : t'.length = 2 * t.length + 1) :
    FullWidth t' ↔ FullWidth t := by
  constructor
  · rintro ⟨k, hk⟩
    cases k with
    | zero => omega
    | succ k => exact ⟨k, by rw [pow_succ] at hk; omega⟩
  · rintro ⟨k, hk⟩
    exact ⟨k + 1, by rw [pow_succ, ← hk]; omega⟩

/-! ## What the operations do to the length -/

theorem fullWidth_of_extendRatchetTree {t t' : RatchetTree} (h : extendRatchetTree t = .ok t') :
    FullWidth t' := by
  obtain ⟨d, -, hlen, -⟩ := extendRatchetTree_spec h
  exact fullWidth_of_size hlen

theorem fullWidth_of_removeLeafNode {t t' : RatchetTree} {i : ℕ} (h : removeLeafNode t i = .ok t') :
    FullWidth t' := by
  obtain ⟨path, -, h⟩ := bind_eq_ok.mp h
  simp only [condenseRatchetTreeAfterRemove] at h
  split_ifs at h
  exact fullWidth_of_extendRatchetTree h

theorem length_addUnmergedLeaf {t c c' : RatchetTree} {i : ℕ} {n : ℤ}
    (h : addUnmergedLeaf t i c n = .ok c') : c'.length = c.length := by
  unfold addUnmergedLeaf at h
  split at h
  · rw [← Except.ok.inj h]
  · rw [← Except.ok.inj h, length_setNode]
  · cases h

/-- A leaf is written into the tree, or into one twice as wide. -/
theorem fullWidth_addLeafNode {t t' : RatchetTree} {leafNode : LeafNode} {n : ℤ}
    (h : addLeafNode t leafNode = .ok (t', n)) : FullWidth t' ↔ FullWidth t := by
  unfold addLeafNode at h
  split at h
  · simp only [extendTree] at h
    split_ifs at h with hlen
    obtain ⟨rfl, -⟩ := Prod.mk.inj (Except.ok.inj h)
    refine fullWidth_double ?_
    simp only [List.length_append, List.length_cons, List.length_replicate]
    omega
  · obtain ⟨i, -, h⟩ := bind_eq_ok.mp h
    obtain ⟨path, -, h⟩ := bind_eq_ok.mp h
    obtain ⟨copy, hcopy, h⟩ := bind_eq_ok.mp h
    obtain ⟨rfl, -⟩ := Prod.mk.inj (Except.ok.inj h)
    have hlen : copy.length = t.length :=
      foldlM_inv (P := fun c : RatchetTree => c.length = t.length) rfl
        (fun n _ b c hb hc => (length_addUnmergedLeaf hc).trans hb) hcopy
    exact fullWidth_congr (by rw [length_setNode, hlen])

theorem length_initialTreeUpdateStep {cs : CiphersuiteImpl} {state state' : RatchetTree × List PathSecret}
    {node : PathNode} (h : initialTreeUpdateStep cs state node = .ok state') :
    state'.1.length = state.1.length := by
  obtain ⟨secret, -, h⟩ := bind_eq_ok.mp h
  obtain ⟨nextPathSecret, -, h⟩ := bind_eq_ok.mp h
  obtain ⟨nextNodeSecret, -, h⟩ := bind_eq_ok.mp h
  obtain ⟨keyPair, -, h⟩ := bind_eq_ok.mp h
  obtain ⟨hpkePublicKey, -, h⟩ := bind_eq_ok.mp h
  rw [← Except.ok.inj h, length_setNode]

theorem length_insertParentHash {h : Hash} {t t' : RatchetTree} {n : ℤ}
    (hinsert : insertParentHash h t n = .ok t') : t'.length = t.length := by
  obtain ⟨parentHash, -, hinsert⟩ := bind_eq_ok.mp hinsert
  dsimp only at hinsert
  split at hinsert
  · rw [← Except.ok.inj hinsert, length_setNode]
  · cases hinsert

/-- A path is written into the places there are. -/
theorem length_createUpdatePath {t : RatchetTree} {i : ℕ} {gc : GroupContext} {cs : CiphersuiteImpl}
    {key : cs.signature.SignatureSecretKey} {coins : PathCoins} {excludeNodes : List ℤ}
    {patch : ResolvedLeafNodePatch cs.signature} {path : CreatedPath cs}
    (h : createUpdatePath t i gc cs key coins excludeNodes patch = .ok path) :
    path.tree.length = t.length := by
  simp only [createUpdatePath] at h
  split at h
  · obtain ⟨leafNodeSecret, -, h⟩ := bind_eq_ok.mp h
    obtain ⟨keyPair, -, h⟩ := bind_eq_ok.mp h
    obtain ⟨fdp, -, h⟩ := bind_eq_ok.mp h
    obtain ⟨written, hwritten, h⟩ := bind_eq_ok.mp h
    obtain ⟨hashed, hhashed, h⟩ := bind_eq_ok.mp h
    obtain ⟨leafParentHash, -, h⟩ := bind_eq_ok.mp h
    obtain ⟨hpkePublicKey, -, h⟩ := bind_eq_ok.mp h
    obtain ⟨updatedLeafNode, -, h⟩ := bind_eq_ok.mp h
    obtain ⟨treeHash, -, h⟩ := bind_eq_ok.mp h
    obtain ⟨nodes, -, h⟩ := bind_eq_ok.mp h
    have hw : written.1.length = t.length :=
      foldlM_inv (P := fun state : RatchetTree × List PathSecret => state.1.length = t.length) rfl
        (fun n _ b c hb hc => (length_initialTreeUpdateStep hc).trans hb) hwritten
    have hh : hashed.length = t.length :=
      foldlM_inv (P := fun c : RatchetTree => c.length = t.length) hw
        (fun n _ b c hb hc => (length_insertParentHash hc).trans hb) hhashed
    rw [← Except.ok.inj h, length_setNode, hh]
  · cases h

/-! ## Joins -/

/-- The GroupInfo carries the group's tree. -/
def CarriesTree (gi : GroupInfo) : Prop := (findExtension gi.extensions .ratchet_tree).isSome

/-- A tree read from the GroupInfo is widened, a passed one is not. -/
theorem fullWidth_joinedTree {gi : GroupInfo} {passed : Option RatchetTree} {tree : RatchetTree}
    (h : joinedTree gi passed = .ok tree) :
    FullWidth tree ↔ CarriesTree gi ∨ ∃ t, passed = some t ∧ FullWidth t := by
  obtain ⟨fromExtension, hfrom, h⟩ := bind_eq_ok.mp h
  unfold ratchetTreeFromExtension at hfrom
  unfold CarriesTree
  cases hfind : findExtension gi.extensions .ratchet_tree with
  | none =>
    simp only [hfind] at hfrom
    obtain rfl := Except.ok.inj hfrom
    cases passed with
    | none => cases h
    | some t =>
      obtain rfl := Except.ok.inj h
      simp
  | some extension =>
    simp only [hfind] at hfrom
    obtain ⟨decoded, hdecoded, hfrom⟩ := bind_eq_ok.mp hfrom
    cases decoded with
    | none => cases hfrom
    | some decoded =>
      obtain rfl := Except.ok.inj hfrom
      obtain rfl := Except.ok.inj h
      obtain ⟨nodes, hnodes, -⟩ := decodeRatchetTree_eq_ok hdecoded
      simp [fullWidth_of_extendRatchetTree hnodes]

theorem enterGroup_tree {cs : CiphersuiteImpl} {opened : OpenedWelcome} {tree : RatchetTree}
    {keyPackage : KeyPackage} {privateKeys : PrivateKeyPackage cs.signature}
    {clientConfig : ClientConfig} {result : JoinGroupResult cs.signature}
    (h : enterGroup cs opened tree keyPackage privateKeys clientConfig = .ok result) :
    result.state.ratchetTree = tree := by
  obtain ⟨newLeaf, -, h⟩ := bind_eq_ok.mp h
  obtain ⟨updatedPkp, -, h⟩ := bind_eq_ok.mp h
  obtain ⟨derived, -, h⟩ := bind_eq_ok.mp h
  obtain ⟨confirmationTagVerified, -, h⟩ := bind_eq_ok.mp h
  split_ifs at h
  obtain ⟨secretTree, -, h⟩ := bind_eq_ok.mp h
  rw [← Except.ok.inj h]

/-- A successful join opened the Welcome and holds the tree it validated. -/
theorem joinGroup_eq_ok {cs : CiphersuiteImpl} {welcome : Welcome} {keyPackage : KeyPackage}
    {privateKeys : PrivateKeyPackage cs.signature} {pskSearch : PskIndex}
    {options : JoinOptions cs.signature} {currentTime : ℤ} {state : ClientState cs.signature}
    (h : joinGroup cs welcome keyPackage privateKeys pskSearch options currentTime = .ok state) :
    ∃ opened tree result,
      openWelcome cs welcome keyPackage privateKeys.initPrivateKey pskSearch = .ok opened ∧
      joinedTree opened.groupInfo options.ratchetTree = .ok tree ∧
      validateJoinedTree cs opened.groupInfo tree keyPackage options.clientConfig currentTime =
        .ok () ∧
      enterGroup cs opened tree keyPackage privateKeys options.clientConfig = .ok result ∧
      result.state = state := by
  obtain ⟨result, hresult, h⟩ := bind_eq_ok.mp h
  unfold joinGroupWithGroupInfo at hresult
  split at hresult
  · cases hresult
  · obtain ⟨opened, hopened, hresult⟩ := bind_eq_ok.mp hresult
    obtain ⟨_, -, hresult⟩ := bind_eq_ok.mp hresult
    obtain ⟨tree, htree, hresult⟩ := bind_eq_ok.mp hresult
    obtain ⟨_, hvalid, hresult⟩ := bind_eq_ok.mp hresult
    obtain ⟨_, -, hresult⟩ := bind_eq_ok.mp hresult
    exact ⟨opened, tree, result, hopened, htree, hvalid, hresult, Except.ok.inj h⟩

/-- An external join writes its leaf and its path into the tree it validated, without the
leaf a resync removes. -/
theorem joinGroupExternal_eq_ok {cs : CiphersuiteImpl} {groupInfo : GroupInfo}
    {keyPackage : KeyPackage} {privateKeys : PrivateKeyPackage cs.signature} {resync : Bool}
    {tree : Option RatchetTree} {clientConfig : ClientConfig} {authenticatedData : Bytes}
    {coins : ExternalCoins} {currentTime : ℤ} {joined : ExternalJoin cs.signature}
    (h : joinGroupExternal cs groupInfo keyPackage privateKeys resync tree clientConfig
      authenticatedData coins currentTime = .ok joined) :
    ∃ ratchetTree former updatedTree treeWithNewLeaf newLeafNodeIndex newLeafIndex path,
      validateExternalJoin cs groupInfo tree clientConfig currentTime = .ok ratchetTree ∧
      formerLeafIndex resync clientConfig.keyPackageEqualityConfig keyPackage ratchetTree =
        .ok former ∧
      withoutFormerLeaf ratchetTree former = .ok updatedTree ∧
      addLeafNode updatedTree keyPackage.leafNode.leaf = .ok (treeWithNewLeaf, newLeafNodeIndex) ∧
      createUpdatePath treeWithNewLeaf newLeafIndex groupInfo.groupContext cs
        privateKeys.signaturePrivateKey coins.path = .ok path ∧
      joined.newState.ratchetTree = path.tree := by
  obtain ⟨externalPub, -, h⟩ := bind_eq_ok.mp h
  obtain ⟨exported, -, h⟩ := bind_eq_ok.mp h
  obtain ⟨ratchetTree, hratchetTree, h⟩ := bind_eq_ok.mp h
  obtain ⟨former, hformer, h⟩ := bind_eq_ok.mp h
  obtain ⟨updatedTree, hupdated, h⟩ := bind_eq_ok.mp h
  obtain ⟨⟨treeWithNewLeaf, newLeafNodeIndex⟩, hadd, h⟩ := bind_eq_ok.mp h
  obtain ⟨newLeafIndex, -, h⟩ := bind_eq_ok.mp h
  obtain ⟨path, hpath, h⟩ := bind_eq_ok.mp h
  obtain ⟨pathKeys, -, h⟩ := bind_eq_ok.mp h
  obtain ⟨exportedLeafKey, -, h⟩ := bind_eq_ok.mp h
  obtain ⟨commitSecret, -, h⟩ := bind_eq_ok.mp h
  obtain ⟨signed, -, h⟩ := bind_eq_ok.mp h
  obtain ⟨groupContext, -, h⟩ := bind_eq_ok.mp h
  obtain ⟨epochSecrets, -, h⟩ := bind_eq_ok.mp h
  obtain ⟨secretTree, -, h⟩ := bind_eq_ok.mp h
  obtain ⟨msg, -, h⟩ := bind_eq_ok.mp h
  exact ⟨ratchetTree, former, updatedTree, treeWithNewLeaf, newLeafNodeIndex, newLeafIndex, path,
    hratchetTree, hformer, hupdated, hadd, hpath, by rw [← Except.ok.inj h]⟩

theorem validateExternalJoin_eq_ok {cs : CiphersuiteImpl} {groupInfo : GroupInfo}
    {tree : Option RatchetTree} {clientConfig : ClientConfig} {currentTime : ℤ}
    {ratchetTree : RatchetTree}
    (h : validateExternalJoin cs groupInfo tree clientConfig currentTime = .ok ratchetTree) :
    joinedTree groupInfo tree = .ok ratchetTree ∧
      validateRatchetTree ratchetTree groupInfo.groupContext clientConfig.lifetimeConfig
        clientConfig.authService groupInfo.groupContext.treeHash cs currentTime = .ok none := by
  obtain ⟨joined, hjoined, h⟩ := bind_eq_ok.mp h
  obtain ⟨treeError, hvalid, h⟩ := bind_eq_ok.mp h
  obtain ⟨_, hnone, h⟩ := bind_eq_ok.mp h
  obtain ⟨signaturePublicKey, -, h⟩ := bind_eq_ok.mp h
  obtain ⟨signerCredential, -, h⟩ := bind_eq_ok.mp h
  obtain ⟨credentialVerified, -, h⟩ := bind_eq_ok.mp h
  rw [throwIfDefined_eq_ok.mp hnone] at hvalid
  split_ifs at h
  obtain ⟨groupInfoSignatureVerified, -, h⟩ := bind_eq_ok.mp h
  split_ifs at h
  obtain rfl := Except.ok.inj h
  exact ⟨hjoined, hvalid⟩

/-- Only a resync removes a leaf, and what is left is widened. -/
theorem fullWidth_withoutFormerLeaf {resync : Bool} {config : KeyPackageEqualityConfig}
    {keyPackage : KeyPackage} {t t' : RatchetTree} {former : Option ℕ}
    (hformer : formerLeafIndex resync config keyPackage t = .ok former)
    (h : withoutFormerLeaf t former = .ok t') : FullWidth t' ↔ resync = true ∨ FullWidth t := by
  cases resync with
  | false =>
    obtain rfl := Except.ok.inj hformer
    obtain rfl := Except.ok.inj h
    simp
  | true =>
    simp only [formerLeafIndex, if_pos] at hformer
    split at hformer
    · cases hformer
    · obtain ⟨i, -, hformer⟩ := bind_eq_ok.mp hformer
      obtain rfl := Except.ok.inj hformer
      simp [fullWidth_of_removeLeafNode h]

/-- A joined tree is as wide as every other member's exactly when it was read from the
GroupInfo, or was handed over in full; an external join also makes it so by a resync. -/
theorem joined_fullWidth_iff (cs : CiphersuiteImpl) :
    (∀ welcome keyPackage privateKeys pskSearch options currentTime opened state,
      openWelcome cs welcome keyPackage privateKeys.initPrivateKey pskSearch = .ok opened →
      joinGroup cs welcome keyPackage privateKeys pskSearch options currentTime = .ok state →
      (FullWidth state.ratchetTree ↔
        CarriesTree opened.groupInfo ∨ ∃ t, options.ratchetTree = some t ∧ FullWidth t)) ∧
    (∀ groupInfo keyPackage privateKeys resync tree clientConfig authenticatedData coins currentTime
      joined,
      joinGroupExternal cs groupInfo keyPackage privateKeys resync tree clientConfig
        authenticatedData coins currentTime = .ok joined →
      (FullWidth joined.newState.ratchetTree ↔
        resync = true ∨ CarriesTree groupInfo ∨ ∃ t, tree = some t ∧ FullWidth t)) := by
  constructor
  · intro welcome keyPackage privateKeys pskSearch options currentTime opened state hopened h
    obtain ⟨opened', tree, result, hopened', htree, -, henter, rfl⟩ := joinGroup_eq_ok h
    obtain rfl := Except.ok.inj (hopened.symm.trans hopened')
    rw [enterGroup_tree henter]
    exact fullWidth_joinedTree htree
  · intro groupInfo keyPackage privateKeys resync tree clientConfig authenticatedData coins
      currentTime joined h
    obtain ⟨ratchetTree, former, updatedTree, treeWithNewLeaf, newLeafNodeIndex, newLeafIndex, path,
      hvalid, hformer, hupdated, hadd, hpath, htree⟩ := joinGroupExternal_eq_ok h
    rw [htree, fullWidth_congr (length_createUpdatePath hpath), fullWidth_addLeafNode hadd,
      fullWidth_withoutFormerLeaf hformer hupdated,
      fullWidth_joinedTree (validateExternalJoin_eq_ok hvalid).1]

/-- A tree handed over in full stays so in a join by a Welcome and in an external one. -/
theorem joined_fullWidth_iff_three :
    (∃ welcome keyPackage privateKeys options opened state tree,
      openWelcome plainSuite welcome keyPackage privateKeys.initPrivateKey emptyPskIndex =
        .ok opened ∧
      joinGroup plainSuite welcome keyPackage privateKeys emptyPskIndex options 0 = .ok state ∧
      options.ratchetTree = some tree ∧ FullWidth tree ∧ FullWidth state.ratchetTree) ∧
    ∃ groupInfo keyPackage privateKeys clientConfig coins joined tree,
      joinGroupExternal plainSuite groupInfo keyPackage privateKeys false (some tree) clientConfig
        [] coins 0 = .ok joined ∧ FullWidth tree ∧ FullWidth joined.newState.ratchetTree := by
  have h : (do
      let group ← plainGroupOf 1 [2, 3]
      let welcome ← sentWelcome group
      let keyPackage ← plainKeyPackage 2
      let _ ← openWelcome plainSuite welcome keyPackage (plainPrivateKeys 2).initPrivateKey
        emptyPskIndex
      let _ ← joinGroup plainSuite welcome keyPackage (plainPrivateKeys 2) emptyPskIndex {
        ratchetTree := some group.newState.ratchetTree
        clientConfig := plainConfig } 0
      let groupInfo ← plainGroupInfo group.newState
      let _ ← plainExternalJoin 4 groupInfo group.newState.ratchetTree
      pure group.newState.ratchetTree.length) = Except.ok 7 := by decide +kernel
  obtain ⟨group, -, h⟩ := bind_eq_ok.mp h
  obtain ⟨welcome, -, h⟩ := bind_eq_ok.mp h
  obtain ⟨keyPackage, -, h⟩ := bind_eq_ok.mp h
  obtain ⟨opened, hopened, h⟩ := bind_eq_ok.mp h
  obtain ⟨state, hstate, h⟩ := bind_eq_ok.mp h
  obtain ⟨groupInfo, -, h⟩ := bind_eq_ok.mp h
  obtain ⟨joined, hjoined, h⟩ := bind_eq_ok.mp h
  obtain ⟨joiner, -, hjoined⟩ := bind_eq_ok.mp hjoined
  have hfull : FullWidth group.newState.ratchetTree := ⟨3, by rw [Except.ok.inj h]; rfl⟩
  obtain ⟨hwelcomed, hexternal⟩ := joined_fullWidth_iff plainSuite
  exact ⟨⟨welcome, keyPackage, _, _, opened, state, _, hopened, hstate, rfl, hfull,
      (hwelcomed _ _ _ _ _ _ _ _ hopened hstate).mpr (.inr ⟨_, rfl, hfull⟩)⟩,
    groupInfo, joiner, _, _, _, joined, _, hjoined, hfull,
    (hexternal _ _ _ _ _ _ _ _ _ _ hjoined).mpr (.inr (.inr ⟨_, rfl, hfull⟩))⟩

/-- The second member of a group of three is handed the tree without its last blanks. -/
def strippedJoin : Except MlsError (RatchetTree × ClientState plainSuite.signature) := do
  let group ← plainGroupOf 1 [2, 3]
  let keyPackage ← plainKeyPackage 2
  match group.welcome with
  | none => throw (usageError "No member was added")
  | some welcome => do
    let state ← joinGroup plainSuite welcome keyPackage (plainPrivateKeys 2) emptyPskIndex {
      ratchetTree := some (stripBlankNodes group.newState.ratchetTree)
      clientConfig := plainConfig } 0
    pure (group.newState.ratchetTree, state)

/-- The tree without its last blanks is joined as it is. -/
theorem joinGroup_stripped_tree :
    ∃ tree welcome keyPackage privateKeys options state, FullWidth tree ∧
      options.ratchetTree = some (stripBlankNodes tree) ∧
      joinGroup plainSuite welcome keyPackage privateKeys emptyPskIndex options 0 = .ok state ∧
      ¬FullWidth state.ratchetTree := by
  have heval : (strippedJoin.map fun r => (r.1.length, r.2.ratchetTree.length)) = .ok (7, 5) := by
    decide +kernel
  cases hjoin : strippedJoin with
  | error e =>
    rw [hjoin] at heval
    cases heval
  | ok r =>
    rw [hjoin] at heval
    obtain ⟨hlen, hlen'⟩ := Prod.mk.inj (Except.ok.inj heval)
    obtain ⟨group, -, hjoin⟩ := bind_eq_ok.mp hjoin
    obtain ⟨keyPackage, -, hjoin⟩ := bind_eq_ok.mp hjoin
    cases hwelcome : group.welcome with
    | none =>
      rw [hwelcome] at hjoin
      cases hjoin
    | some welcome =>
      rw [hwelcome] at hjoin
      obtain ⟨state, hstate, hjoin⟩ := bind_eq_ok.mp hjoin
      obtain rfl := Except.ok.inj hjoin
      refine ⟨_, welcome, keyPackage, _, _, state, ⟨3, by rw [hlen]; rfl⟩, rfl, hstate, ?_⟩
      rintro ⟨k, hk⟩
      rw [hlen'] at hk
      have hlt : k < 3 := (Nat.pow_lt_pow_iff_right (by norm_num : 1 < 2)).mp (by omega)
      interval_cases k <;> omega

end WebcryptoMls
