import WebcryptoMls.TreeKeys
import WebcryptoMls.GroupEpochs

/-!
# Usable keys

A path secret is encrypted to keys the tree holds. Every leaf's key is validated before it
enters the tree; the keys of a path's nodes are not, and a receiver derives only those at
and above its common ancestor with the committer.
-/
namespace WebcryptoMls

/-! ## Validated keys -/

/-- `validateHpkePublicKey` accepts the key, whatever it is the key of. -/
def AcceptableKey (cs : CiphersuiteImpl) (gc : GroupContext) (key : Bytes) : Prop :=
  ∀ what, validateHpkePublicKey key gc cs.hpke what = .ok none

def AcceptableTree (cs : CiphersuiteImpl) (gc : GroupContext) (tree : RatchetTree) : Prop :=
  ∀ key ∈ keysOf tree, AcceptableKey cs gc key

section
variable {cs : CiphersuiteImpl} {gc gc' : GroupContext} {key : Bytes}

theorem validateHpkePublicKey_eq_none {hpke : Hpke} {what : String} :
    validateHpkePublicKey key gc hpke what = .ok none ↔ ∃ suite,
      getCiphersuiteFromName gc.cipherSuite = .ok suite ∧
      isLowOrderKemPublicKey suite.kem key = false ∧ ∃ k, hpke.importPublicKey key = .ok k := by
  unfold validateHpkePublicKey
  cases getCiphersuiteFromName gc.cipherSuite with
  | error e => simp
  | ok suite =>
    rw [ok_bind]
    cases hlow : isLowOrderKemPublicKey suite.kem key with
    | true => simp [hlow, pure, Except.pure]
    | false => cases himport : hpke.importPublicKey key <;> simp [hlow, pure, Except.pure]

theorem acceptableKey_of {what : String} (h : validateHpkePublicKey key gc cs.hpke what = .ok none) :
    AcceptableKey cs gc key :=
  fun _ => validateHpkePublicKey_eq_none.mpr (validateHpkePublicKey_eq_none.mp h)

instance : Decidable (AcceptableKey cs gc key) :=
  decidable_of_iff (validateHpkePublicKey key gc cs.hpke "" = .ok none) ⟨acceptableKey_of, fun h => h ""⟩

instance {tree : RatchetTree} : Decidable (AcceptableTree cs gc tree) :=
  decidable_of_iff (∀ slot ∈ tree, ∀ node ∈ slot, AcceptableKey cs gc (getHpkePublicKey node)) (by
    simp only [AcceptableTree, keysOf, Set.mem_ofPred_eq, Option.mem_def]
    constructor
    · rintro h key ⟨node, hnode, rfl⟩
      exact h _ hnode node rfl
    · rintro h _ hslot node rfl
      exact h _ ⟨node, hslot, rfl⟩)

/-- Only the ciphersuite of the context matters. -/
theorem acceptableKey_congr (h : gc'.cipherSuite = gc.cipherSuite) :
    AcceptableKey cs gc' key ↔ AcceptableKey cs gc key := by
  simp [AcceptableKey, validateHpkePublicKey, h]

theorem acceptableTree_congr {tree : RatchetTree} (h : gc'.cipherSuite = gc.cipherSuite) :
    AcceptableTree cs gc' tree ↔ AcceptableTree cs gc tree := by
  simp [AcceptableTree, acceptableKey_congr h]

theorem AcceptableTree.mono {t t' : RatchetTree} (h : AcceptableTree cs gc t)
    (hkeys : keysOf t' ⊆ keysOf t) : AcceptableTree cs gc t' := fun key hkey => h key (hkeys hkey)

theorem AcceptableTree.insert {t t' : RatchetTree} (h : AcceptableTree cs gc t)
    (hkey : AcceptableKey cs gc key) (hkeys : keysOf t' ⊆ insert key (keysOf t)) :
    AcceptableTree cs gc t' := by
  intro key' hkey'
  rcases hkeys hkey' with rfl | hmem
  · exact hkey
  · exact h key' hmem

variable {leafNode : LeafNode} {tree : RatchetTree} {authService : AuthenticationService}
  {leaves : LeafSummary}

theorem validateLeafNodeCommon_acceptable {leafIndex : Option ℕ} {priorCredential : Option Credential}
    (h : validateLeafNodeCommon leafNode gc tree authService cs.hpke leaves leafIndex
      priorCredential = .ok none) : AcceptableKey cs gc leafNode.hpkePublicKey := by
  obtain ⟨keyError, hkey, h⟩ := bind_eq_ok.mp h
  cases keyError with
  | some e => cases h
  | none => exact acceptableKey_of hkey

theorem validateLeafNodeUpdateOrCommit_acceptable {leafIndex : ℕ} {sig : Signature}
    {priorCredential : Option Credential}
    (h : validateLeafNodeUpdateOrCommit leafNode leafIndex gc tree authService sig cs.hpke
      priorCredential leaves = .ok none) : AcceptableKey cs gc leafNode.hpkePublicKey := by
  obtain ⟨smallOrder, -, h⟩ := bind_eq_ok.mp h
  split at h
  · cases h
  · obtain ⟨signatureValid, -, h⟩ := bind_eq_ok.mp h
    split at h
    · cases h
    · exact validateLeafNodeCommon_acceptable h

theorem validateLeafNodeKeyPackage_acceptable {sentByClient : Bool} {config : LifetimeConfig}
    {leafIndex : Option ℕ} {sig : Signature} {currentTime : ℤ}
    (h : validateLeafNodeKeyPackage leafNode gc tree sentByClient config authService leafIndex sig
      cs.hpke leaves currentTime = .ok none) : AcceptableKey cs gc leafNode.hpkePublicKey := by
  obtain ⟨smallOrder, -, h⟩ := bind_eq_ok.mp h
  split at h
  · cases h
  · obtain ⟨signatureValid, -, h⟩ := bind_eq_ok.mp h
    split at h
    · cases h
    · split at h
      · cases h
      · exact validateLeafNodeCommon_acceptable h

theorem validateKeyPackage_acceptable {kp : KeyPackage} {sentByClient : Bool}
    {config : LifetimeConfig} {sig : Signature} {currentTime : ℤ}
    (h : validateKeyPackage kp gc tree sentByClient config authService sig cs.hpke currentTime =
      .ok none) : AcceptableKey cs gc kp.leafNode.leaf.hpkePublicKey := by
  unfold validateKeyPackage at h
  split at h
  · cases h
  · split at h
    · cases h
    · obtain ⟨leafNodeError, hleaf, h⟩ := bind_eq_ok.mp h
      cases leafNodeError with
      | some e => cases h
      | none => exact validateLeafNodeKeyPackage_acceptable hleaf

end

/-! ## Proposals -/

section
variable {cs : CiphersuiteImpl} {gc : GroupContext}

theorem AcceptableTree.applyUpdate {m : TreeMutations} (hgc : m.gc.cipherSuite = gc.cipherSuite)
    {ratchetTree t t' : RatchetTree} {update : Sent LeafNodeUpdate} (ht : AcceptableTree cs gc t)
    (h : applyUpdate cs m ratchetTree t update = .ok t') : AcceptableTree cs gc t' := by
  unfold WebcryptoMls.applyUpdate at h
  split at h
  · cases h
  · obtain ⟨_, -, h⟩ := bind_eq_ok.mp h
    obtain ⟨leafError, hleaf, h⟩ := bind_eq_ok.mp h
    obtain ⟨_, hnone, h⟩ := bind_eq_ok.mp h
    rw [throwIfDefined_eq_ok.mp hnone] at hleaf
    exact ht.insert ((acceptableKey_congr hgc).mp (validateLeafNodeUpdateOrCommit_acceptable hleaf))
      (keysOf_updateLeafNode h)

theorem AcceptableTree.applyRemove {ratchetTree t t' : RatchetTree} {remove : Sent ℕ}
    (ht : AcceptableTree cs gc t) (h : applyRemove ratchetTree t remove = .ok t') :
    AcceptableTree cs gc t' := by
  obtain ⟨_, -, h⟩ := bind_eq_ok.mp h
  exact ht.mono (keysOf_removeLeafNode h)

theorem AcceptableTree.applyAdd {m : TreeMutations} (hgc : m.gc.cipherSuite = gc.cipherSuite)
    {acc acc' : RatchetTree × List (ℕ × KeyPackage)} {add : Sent KeyPackage}
    (ht : AcceptableTree cs gc acc.1) (h : applyAdd cs m acc add = .ok acc') :
    AcceptableTree cs gc acc'.1 := by
  obtain ⟨keyPackageError, hpackage, h⟩ := bind_eq_ok.mp h
  obtain ⟨_, hnone, h⟩ := bind_eq_ok.mp h
  obtain ⟨⟨updatedTree, leafNodeIndex⟩, hadd, h⟩ := bind_eq_ok.mp h
  obtain ⟨leafIndex, -, h⟩ := bind_eq_ok.mp h
  obtain rfl := Except.ok.inj h
  rw [throwIfDefined_eq_ok.mp hnone] at hpackage
  exact ht.insert ((acceptableKey_congr hgc).mp (validateKeyPackage_acceptable hpackage))
    (keysOf_addLeafNode hadd)

theorem AcceptableTree.applyTreeMutations {t : RatchetTree} {grouped : Proposals}
    {m : TreeMutations} (hgc : m.gc.cipherSuite = gc.cipherSuite)
    {result : RatchetTree × List (ℕ × KeyPackage)} (ht : AcceptableTree cs gc t)
    (h : applyTreeMutations t grouped m cs = .ok result) : AcceptableTree cs gc result.1 := by
  obtain ⟨treeAfterUpdate, hupdate, h⟩ := bind_eq_ok.mp h
  obtain ⟨treeAfterRemove, hremove, h⟩ := bind_eq_ok.mp h
  have hupdated : AcceptableTree cs gc treeAfterUpdate :=
    foldlM_inv ht (fun update _ b c hb hc => hb.applyUpdate hgc hc) hupdate
  have hremoved : AcceptableTree cs gc treeAfterRemove :=
    foldlM_inv hupdated (fun remove _ b c hb hc => hb.applyRemove hc) hremove
  exact foldlM_inv (P := fun acc : RatchetTree × List (ℕ × KeyPackage) => AcceptableTree cs gc acc.1)
    hremoved (fun add _ b c hb hc => hb.applyAdd hgc hc) h

variable {state : ClientState cs.signature} {proposals : List ProposalOrRef}
  {committerLeafIndex : Option ℕ} {pskSearch : PskIndex} {sentByClient : Bool}
  {newMemberLeafNode : Option LeafNode} {senderType : SenderTypeName} {currentTime : ℤ}
  {result : ApplyProposalsResult}

theorem groupContextWithExtensions_cipherSuite
    (h : applyProposals cs state proposals committerLeafIndex pskSearch sentByClient
      newMemberLeafNode senderType currentTime = .ok result) :
    (groupContextWithExtensions state.groupContext result.additionalResult).cipherSuite =
      state.groupContext.cipherSuite := by
  obtain ⟨allProposals, -, -, h⟩ := applyProposals_eq_ok h
  obtain ⟨-, h⟩ | ⟨reinit, h⟩ | h := applyGroupedProposals_cases h
  · obtain ⟨-, _, _, _, hdata⟩ := applyExternalProposals_eq_ok h
    rw [hdata]
    rfl
  · rw [(applyReinit_eq_ok h).2]
    rfl
  · obtain ⟨tree, addedLeafNodes, _, _, -, -, rfl⟩ := applyMemberProposals_eq_ok h
    simp only [groupContextWithExtensions, groupContextAfterExtensions]
    split <;> rfl

/-- The keys proposals bring in have been validated. -/
theorem AcceptableTree.applyProposals (ht : AcceptableTree cs gc state.ratchetTree)
    (hgc : state.groupContext.cipherSuite = gc.cipherSuite)
    (h : applyProposals cs state proposals committerLeafIndex pskSearch sentByClient
      newMemberLeafNode senderType currentTime = .ok result) : AcceptableTree cs gc result.tree := by
  obtain ⟨allProposals, -, -, h⟩ := applyProposals_eq_ok h
  obtain ⟨-, h⟩ | ⟨reinit, h⟩ | h := applyGroupedProposals_cases h
  · exact foldlM_inv ht (fun remove _ b c hb hc => hb.mono (keysOf_removeLeafNode hc))
      (applyExternalProposals_eq_ok h).1
  · rwa [(applyReinit_eq_ok h).1]
  · obtain ⟨tree, addedLeafNodes, _, _, -, htree, rfl⟩ := applyMemberProposals_eq_ok h
    refine ht.applyTreeMutations ?_ htree
    simp only [groupContextAfterExtensions]
    split <;> exact hgc

end

/-! ## Commits -/

section
variable {cs : CiphersuiteImpl} {state : ClientState cs.signature}

/-- A path's leaf has been validated. -/
theorem validateCommitPath_acceptable {sender : Sender} {result : ApplyProposalsResult}
    {path : UpdatePath} (h : validateCommitPath cs state sender result (some path) = .ok ()) :
    AcceptableKey cs (groupContextWithExtensions state.groupContext result.additionalResult)
      path.leafNode.leaf.hpkePublicKey := by
  unfold validateCommitPath at h
  split at h
  · contradiction
  · rename_i path' hpath
    obtain rfl := Option.some.inj hpath
    split at h
    · cases h
    · obtain ⟨err, hleaf, h⟩ := bind_eq_ok.mp h
      rw [throwIfDefined_eq_ok.mp h] at hleaf
      exact validateLeafNodeUpdateOrCommit_acceptable hleaf

/-- A commit leaves the keys of the tree its proposals made, with those of its path. -/
theorem applyTreeUpdate_keys {path : Option UpdatePath} {sender : Sender} {tree : RatchetTree}
    {privatePath : PrivateKeyPath} {gc : GroupContext} {excludeNodes : List ℤ}
    {update : TreeUpdate}
    (h : applyTreeUpdate cs path sender tree privatePath gc excludeNodes = .ok update) :
    (path = none → update.tree = tree) ∧ ∀ p, path = some p →
      keysOf update.tree ⊆ insert p.leafNode.leaf.hpkePublicKey (keysOf tree) ∪
        {key | ∃ node ∈ p.nodes, node.hpkePublicKey = key} ∧
      ∀ node ∈ p.nodes, node.hpkePublicKey ∈ keysOf update.tree := by
  have htree {updatedTree : RatchetTree} {i : ℕ} {p : UpdatePath}
      (h : applyUpdatedTree cs updatedTree privatePath i gc p excludeNodes = .ok update) :
      update.tree = updatedTree := by
    obtain ⟨treeHash, -, h⟩ := bind_eq_ok.mp h
    obtain ⟨updated, -, h⟩ := bind_eq_ok.mp h
    rw [← Except.ok.inj h]
  unfold applyTreeUpdate at h
  split at h
  · obtain ⟨treeHash, -, h⟩ := bind_eq_ok.mp h
    obtain rfl := Except.ok.inj h
    simp
  · rename_i path
    refine ⟨by simp, fun p hp => ?_⟩
    obtain rfl := Option.some.inj hp
    split at h
    · obtain ⟨updatedTree, happly, h⟩ := bind_eq_ok.mp h
      rw [htree h]
      exact keysOf_applyUpdatePath happly
    · obtain ⟨⟨treeWithLeafNode, leafNodeIndex⟩, hadd, h⟩ := bind_eq_ok.mp h
      obtain ⟨senderLeafIndex, -, h⟩ := bind_eq_ok.mp h
      obtain ⟨updatedTree, happly, h⟩ := bind_eq_ok.mp h
      rw [htree h]
      obtain ⟨hsub, hall⟩ := keysOf_applyUpdatePath happly
      refine ⟨hsub.trans (Set.union_subset_union_left _ ?_), hall⟩
      exact Set.insert_subset (Set.mem_insert _ _) (keysOf_addLeafNode hadd)

theorem nextEpochContext_cipherSuite {gc next : GroupContext} {wireformat : WireformatName}
    {content : FramedContent} {signature updatedTreeHash confirmationTag : Bytes} {h : Hash}
    (hnext : nextEpochContext gc wireformat content signature updatedTreeHash confirmationTag h =
      .ok next) : next.cipherSuite = gc.cipherSuite := by
  obtain ⟨_, rfl⟩ := nextEpochContext_eq_ok hnext
  rfl

/-- A commit that is followed leaves usable keys exactly when its path's nodes carry such. -/
theorem FollowedCommit.Follows.acceptable_iff {f : FollowedCommit cs} {pskSearch : PskIndex}
    {currentTime : ℤ} (h : f.Follows state pskSearch currentTime)
    (hstate : AcceptableTree cs state.groupContext state.ratchetTree) :
    AcceptableTree cs (f.newState state).groupContext (f.newState state).ratchetTree ↔
      ∀ path, f.commit.path = some path → ∀ node ∈ path.nodes,
        AcceptableKey cs state.groupContext node.hpkePublicKey := by
  obtain ⟨hupdate, hcontext, -, -⟩ := deriveNextEpoch_eq_ok h.next
  have hsuite := groupContextWithExtensions_cipherSuite h.applied
  have hnew : (f.newState state).groupContext.cipherSuite = state.groupContext.cipherSuite :=
    (nextEpochContext_cipherSuite hcontext).trans hsuite
  have hproposals := hstate.applyProposals rfl h.applied
  obtain ⟨hnone, hsome⟩ := applyTreeUpdate_keys hupdate
  rw [acceptableTree_congr hnew]
  change AcceptableTree cs state.groupContext f.next.update.tree ↔ _
  cases hpath : f.commit.path with
  | none => simpa [hnone hpath] using hproposals
  | some path =>
    obtain ⟨hsub, hall⟩ := hsome path hpath
    have hvalid := h.path
    rw [hpath] at hvalid
    have hleaf := (acceptableKey_congr hsuite).mp (validateCommitPath_acceptable hvalid)
    constructor
    · intro htree path' hpath' node hnode
      obtain rfl := Option.some.inj hpath'
      exact htree _ (hall node hnode)
    · intro hnodes key hkey
      rcases hsub hkey with (rfl | hmem) | ⟨node, hnode, rfl⟩
      · exact hleaf
      · exact hproposals key hmem
      · exact hnodes path rfl node hnode

end

/-- From a tree of usable keys, a commit that is accepted leads to one exactly when every
node of its path carries a usable key; where it removes the member, the tree stays. To a
usable key a path secret can be encrypted. -/
theorem acceptableTree_iff (cs : CiphersuiteImpl) :
    (∀ (state newState : ClientState cs.signature) message pskIndex action currentTime committer
      content commit, AcceptableTree cs state.groupContext state.ratchetTree →
      processMessage cs message state pskIndex action currentTime =
        .ok (.newState newState .accept (some committer)) →
      readContent cs state message = .ok content → content.content.info = .commit commit →
      (newState.groupActiveState = .removedFromGroup → newState.ratchetTree = state.ratchetTree) ∧
      (newState.groupActiveState ≠ .removedFromGroup →
        (AcceptableTree cs newState.groupContext newState.ratchetTree ↔
          ∀ path, commit.path = some path → ∀ node ∈ path.nodes,
            AcceptableKey cs state.groupContext node.hpkePublicKey))) ∧
    ∀ tree gc pathSecret jobs, AcceptableTree cs gc tree →
      encryptionJobs tree pathSecret = .ok jobs → ∀ job ∈ jobs,
      (∃ suite, getCiphersuiteFromName gc.cipherSuite = .ok suite ∧
        isLowOrderKemPublicKey suite.kem job.recipientKey = false) ∧
      ∃ key, cs.hpke.importPublicKey job.recipientKey = .ok key := by
  constructor
  · intro state newState message pskIndex action currentTime committer content commit hstate h
      hcontent hcommit
    cases processMessage_processed h with
    | removed current => exact ⟨fun _ => rfl, fun hmember => absurd rfl hmember⟩
    | followed current f content' commit' follows =>
      obtain rfl := Except.ok.inj (hcontent.symm.trans content')
      obtain rfl := FramedContentInfo.commit.inj (hcommit.symm.trans commit')
      exact ⟨fun hremoved => absurd hremoved (nextGroupActiveState_of_member follows.notRemoved),
        fun _ => follows.acceptable_iff hstate⟩
  · intro tree gc pathSecret jobs htree hjobs job hjob
    obtain ⟨nodeIndex, -, hjob⟩ := mem_of_mapM hjobs job hjob
    obtain ⟨recipientKey, hkey, hjob⟩ := bind_eq_ok.mp hjob
    obtain rfl := Except.ok.inj hjob
    unfold publicKeyAt at hkey
    split at hkey
    · rename_i node hnode
      obtain rfl := Except.ok.inj hkey
      obtain ⟨suite, hsuite, hlow, himport⟩ := validateHpkePublicKey_eq_none.mp
        (htree _ (mem_keysOf (mem_of_nodeAt hnode)) "key")
      exact ⟨⟨suite, hsuite, hlow⟩, himport⟩
    · cases hkey

/-! ## A committer that plants a key -/

/-- The secret of the first node of a path. -/
def firstNodeSecret (pathSecret : Bytes) : Except MlsError Bytes := do
  let next ← deriveSecret pathSecret "path" plainSuite.kdf
  deriveSecret next "node" plainSuite.kdf

/-- The suite of a client that puts a key of low order into the first node of its path. -/
def plantingSuite (pathSecret : Bytes) : CiphersuiteImpl where
  hash := plainSuite.hash
  hpke := { plainSuite.hpke with
    deriveKeyPair := fun ikm =>
      if firstNodeSecret pathSecret = .ok ikm then pure (ikm, List.replicate 32 (0 : UInt8))
      else plainSuite.hpke.deriveKeyPair ikm }
  signature := plainSuite.signature
  kdf := plainSuite.kdf
  name := plainSuite.name

/-- In a group of three the third member receives a commit whose lowest node is not above
its leaf. -/
def plantedCommit : Except MlsError (ClientState plainSuite.signature × MlsHandshakeMessage) := do
  let group ← plainGroupOf 1 [2, 3]
  let keyPackage ← plainKeyPackage 3
  match group.welcome with
  | none => throw (usageError "No member was added")
  | some welcome => do
    let state ← joinGroup plainSuite welcome keyPackage (plainPrivateKeys 3) emptyPskIndex {
      ratchetTree := some group.newState.ratchetTree
      clientConfig := plainConfig } 0
    let committed ← createCommit (plantingSuite [1]) group.newState emptyPskIndex
      { wireAsPublicMessage := true } (plainCoins [1]) 0
    match committed.commit.content with
    | .mls_public_message pm => pure (state, .mls_public_message pm)
    | _ => throw (usageError "Not a public message")

/-- Whether the receiver's tree is usable before and after, and what it did. -/
def plantedOutcome : Except MlsError (Bool × Bool × Bool) := do
  let (state, message) ← plantedCommit
  let result ← processMessage plainSuite message state emptyPskIndex acceptAll 0
  let accepted := match result with
    | .newState _ .accept (some _) => true
    | _ => false
  pure (decide (AcceptableTree plainSuite state.groupContext state.ratchetTree),
    decide (AcceptableTree plainSuite result.state.groupContext result.state.ratchetTree), accepted)

/-- The planted key stands in the path, and before it came every member's key could be
encrypted to. -/
theorem acceptableTree_iff_planted :
    ∃ (state newState : ClientState plainSuite.signature) (message : MlsHandshakeMessage)
      (committer : AuthenticatedSender) (commit : Commit),
      AcceptableTree plainSuite state.groupContext state.ratchetTree ∧
      processMessage plainSuite message state emptyPskIndex acceptAll 0 =
        .ok (.newState newState .accept (some committer)) ∧
      ¬AcceptableTree plainSuite newState.groupContext newState.ratchetTree ∧
      (∃ path node, commit.path = some path ∧ node ∈ path.nodes ∧
        ¬AcceptableKey plainSuite state.groupContext node.hpkePublicKey) ∧
      ∃ jobs, encryptionJobs state.ratchetTree ⟨1, [1], [0, 2]⟩ = .ok jobs ∧ ∀ job ∈ jobs,
        ∃ key, plainSuite.hpke.importPublicKey job.recipientKey = .ok key := by
  have h : (do
      let (state, message) ← plantedCommit
      let result ← processMessage plainSuite message state emptyPskIndex acceptAll 0
      let content ← readContent plainSuite state message
      let _ ← encryptionJobs state.ratchetTree ⟨1, [1], [0, 2]⟩
      let accepted := match result with
        | .newState _ .accept (some _) => true
        | _ => false
      pure (decide (AcceptableTree plainSuite state.groupContext state.ratchetTree),
        decide (AcceptableTree plainSuite result.state.groupContext result.state.ratchetTree),
        accepted, decide (result.state.groupActiveState = .removedFromGroup),
        content.content.info.contentType)) = Except.ok (true, false, true, false, .commit) := by
    decide +kernel
  obtain ⟨⟨state, message⟩, -, h⟩ := bind_eq_ok.mp h
  obtain ⟨result, hresult, h⟩ := bind_eq_ok.mp h
  obtain ⟨content, hcontent, h⟩ := bind_eq_ok.mp h
  obtain ⟨jobs, hjobs, h⟩ := bind_eq_ok.mp h
  obtain ⟨hbefore, h⟩ := Prod.mk.inj (Except.ok.inj h)
  obtain ⟨hafter, h⟩ := Prod.mk.inj h
  obtain ⟨haccepted, h⟩ := Prod.mk.inj h
  obtain ⟨hmember, htype⟩ := Prod.mk.inj h
  have hbefore := of_decide_eq_true hbefore
  have hafter := of_decide_eq_false hafter
  obtain ⟨htrees, hencrypts⟩ := acceptableTree_iff plainSuite
  split at haccepted
  · obtain ⟨commit, hcommit⟩ : ∃ commit, content.content.info = .commit commit := by
      cases hinfo : content.content.info with
      | commit commit => exact ⟨commit, rfl⟩
      | _ => rw [hinfo] at htype; cases htype
    have hiff := (htrees _ _ _ _ _ _ _ _ _ hbefore hresult hcontent hcommit).2
      (of_decide_eq_false hmember)
    have hpath := mt hiff.mpr hafter
    push Not at hpath
    obtain ⟨path, hpath, node, hnode, hkey⟩ := hpath
    exact ⟨state, _, message, _, commit, hbefore, hresult, hafter,
      ⟨path, node, hpath, hnode, hkey⟩, jobs, hjobs,
      fun job hjob => (hencrypts _ _ _ _ hbefore hjobs job hjob).2⟩
  · cases haccepted

/-- A key of low order is planted below the receiver's common ancestor with the committer. -/
theorem processMessage_plants_key :
    ∃ (state newState : ClientState plainSuite.signature) (message : MlsHandshakeMessage)
      (committer : AuthenticatedSender),
      AcceptableTree plainSuite state.groupContext state.ratchetTree ∧
      processMessage plainSuite message state emptyPskIndex acceptAll 0 =
        .ok (.newState newState .accept (some committer)) ∧
      ¬AcceptableTree plainSuite newState.groupContext newState.ratchetTree := by
  have heval : plantedOutcome = .ok (true, false, true) := by decide +kernel
  unfold plantedOutcome at heval
  obtain ⟨r, -, heval⟩ := bind_eq_ok.mp heval
  obtain ⟨state, message⟩ := r
  obtain ⟨result, hresult, heval⟩ := bind_eq_ok.mp heval
  obtain ⟨hbefore, heval⟩ := Prod.mk.inj (Except.ok.inj heval)
  obtain ⟨hafter, haccepted⟩ := Prod.mk.inj heval
  split at haccepted
  · exact ⟨state, _, message, _, of_decide_eq_true hbefore, hresult, of_decide_eq_false hafter⟩
  · cases haccepted

end WebcryptoMls
